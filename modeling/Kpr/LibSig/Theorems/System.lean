import Kpr.LibSig.Theorems.Nesting
import Kpr.LibSig.Theorems.Timer
import Kpr.LibSig.System

namespace LibSig

variable {c : Config} {μ : Nat → Nat} {s s' : System} {e : SystemEvent} {es : List SystemEvent}
  {regs : ExcRegs} {mem : Machine.Memory} {m c₀ n trapno err pfa : Nat}

-- What is known of the time of the next signal after a step of the signal thread.
structure Onward (m : Nat) (e : TimerEvent) (s s' : Timers) : Prop where
  clock    : s.clock ≤ s'.clock
  deadline : ∀ t ∈ s'.deadline, t ∈ s.deadline ∨ s.clock + m ≤ t
  signals  : s'.signals.length = s.signals.length + (if e.expires then 1 else 0)
  due      : e.expires = true → ∃ t ∈ s.deadline, t ≤ s.clock

-- No time passes otherwise.
theorem Timers.step_clock {s s' : Timers} {e : TimerEvent} (hs : s.step μ e = some s')
    (hp : ∀ n, e ≠ .pass n) : s'.clock = s.clock := by
  cases e
  case pass n  => exact absurd rfl (hp n)
  case message => exact Option.some.inj hs ▸ timeout_clock
  case alarm   =>
    rw [step, Option.some.injEq] at hs
    rw [← hs, alarm]
  case setitimer =>
    obtain rfl := Option.some.inj hs
    obtain ⟨_, he | ⟨_, he⟩⟩ := setitimer_cases (s := s) <;> rw [he]
  case expire =>
    obtain ⟨_, _, _, rfl⟩ := step_expire hs
    exact timeout_clock (s := s.error)

namespace Timers.Spaced

variable {s s' : Timers} {e : TimerEvent} (h : s.Spaced μ m c₀)
include h

theorem onward_timeout : Onward m .message s (s.timeout μ) where
  clock        := Nat.le_of_eq timeout_clock.symm
  deadline t ht := .inr (h.le_deadline t ht)
  signals      := congrArg List.length timeout_signals
  due          := nofun

theorem onward (hg : s.Slow μ m e) (hs : s.step μ e = some s') : Onward m e s s' := by
  cases e
  case pass n => exact Option.some.inj hs ▸ ⟨Nat.le_add_right .., fun _ => .inl, rfl, nofun⟩
  case alarm n => exact absurd hg id
  case message => exact Option.some.inj hs ▸ h.onward_timeout
  case setitimer which new old =>
    obtain rfl := Option.some.inj hs
    obtain ⟨_, he | ⟨_, he⟩⟩ := setitimer_cases (s := s)
    case inl => rw [he]; exact ⟨Nat.le_refl _, fun _ => .inl, rfl, nofun⟩
    case inr => rw [he]; exact ⟨Nat.le_refl _, fun _ => .inl, rfl, nofun⟩
  case expire =>
    obtain ⟨t, ht, hc, rfl⟩ := step_expire hs
    have hd := (h.error ht hc).le_deadline
    rw [timeout_deadline] at hd
    exact ⟨Nat.le_of_eq (timeout_clock (s := s.error)).symm, fun t ht => .inr (hd t ht),
      congrArg List.length (timeout_signals (s := s.error)), fun _ => ⟨t, ht, hc⟩⟩

end Timers.Spaced

namespace System

-- No timer is faster than `m`, and it takes less time to handle an alarm.
def Prompt (μ : Nat → Nat) (m : Nat) (s : System) : SystemEvent → Prop
  | .timer (.pass n) => ∀ x ∈ s.nested, s.timers.clock + n < x + m
  | .timer e         => s.timers.Slow μ m e
  | .thread _        => True

theorem Prompt.slow {e : TimerEvent} (h : s.Prompt μ m (.timer e)) : s.timers.Slow μ m e := by
  cases e
  case pass => trivial
  all_goals exact h

-- The main thread enters an alarm, or there is another exception.
inductive Raised (μ : Nat → Nat) (s : System) : System → Prop
  | alarm (thread : Thread) (h : s.pending = true) : Raised μ s { s with
    timers  := s.timers.timeout μ
    thread  := thread
    pending := false
    entered := some s.timers.clock :: s.entered
    alarms  := s.timers.clock :: s.alarms }
  | other (thread : Thread) (running pending : Bool) (entered : List (Option Nat))
      (hp : pending = true → s.pending = true) (he : (entered.filterMap id).Sublist s.nested) :
    Raised μ s { s with timers := s.timers.timeout μ, thread, running, pending, entered }

theorem raise_raised (hs : s.raise c μ trapno err pfa = some s') : s.Raised μ s' := by
  have hp : (if trapno = 0xff then false else s.pending) = true → s.pending = true := by
    split
    case isTrue  => exact nofun
    case isFalse => exact id
  rw [raise] at hs
  split at hs
  case isTrue     => contradiction
  case isFalse hr =>
    dsimp only at hs
    split at hs
    case h_1 =>
      obtain rfl := Option.some.inj hs
      exact .other _ _ _ _ hp (.refl _)
    case h_2 =>
      split at hs
      case isTrue =>
        obtain rfl := Option.some.inj hs
        exact .other _ _ _ _ hp ((List.tail_sublist _).filterMap id)
      case isFalse =>
        split at hs
        case isFalse =>
          obtain rfl := Option.some.inj hs
          exact .other _ _ _ (none :: s.entered) id (.refl _)
        case isTrue ht =>
          have hp : s.pending = true := Bool.not_eq_false _ ▸ fun hp => hr ⟨ht, hp⟩
          rw [Timers.timeout_clock] at hs
          exact Option.some.inj hs ▸ .alarm _ hp

theorem step_thread {e : Event} (hs : s.step c μ (.thread e) = some s') :
    (∃ thread, s' = { s with thread }) ∨ s.Raised μ s' := by
  cases e <;> simp only [step] at hs <;> split at hs
  case exception.isFalse => exact .inr (raise_raised hs)
  case run.isFalse | signal.isFalse | sigaction.isFalse =>
    have ⟨thread, _, hs⟩ := Option.bind_eq_some_iff.mp hs
    exact .inl ⟨thread, (Option.some.inj hs).symm⟩
  all_goals contradiction

-- After an alarm has been entered, there is no signal for some time.
structure Calm (μ : Nat → Nat) (m c₀ : Nat) (s : System) : Prop where
  timers  : s.timers.Spaced μ m c₀
  spaced  : s.alarms.IsChain fun x y => y + m ≤ x
  fewer   : s.alarms.length + (if s.pending then 1 else 0) ≤ s.timers.signals.length
  past    : ∀ x ∈ s.alarms.head?, x ≤ s.timers.clock
  pending : s.pending = true → ∀ x ∈ s.alarms.head?, x + m ≤ s.timers.clock
  next    : ∀ x ∈ s.alarms.head?, ∀ t ∈ s.timers.deadline, x + m ≤ t

theorem start_calm : (start c₀ regs mem).Calm μ m c₀ where
  timers  := Timers.boot_spaced
  spaced  := .nil
  fewer   := Nat.le_refl _
  past    := nofun
  pending := nofun
  next    := nofun

namespace Calm

variable (h : s.Calm μ m c₀)
include h

theorem onward {e : TimerEvent} {t : Timers} (ho : Onward m e s.timers t) (ht : t.Spaced μ m c₀) :
    Calm μ m c₀ { s with timers := t, pending := s.pending || e.expires } where
  timers     := ht
  spaced     := h.spaced
  past x hx  := Nat.le_trans (h.past x hx) ho.clock
  next x hx t ht := by
    cases ho.deadline t ht
    case inl ht => exact h.next x hx t ht
    case inr ht => exact Nat.le_trans (Nat.add_le_add_right (h.past x hx) m) ht
  pending hp x hx := by
    cases (Bool.or_eq_true ..).mp hp
    case inl hp => exact Nat.le_trans (h.pending hp x hx) ho.clock
    case inr he =>
      obtain ⟨t, ht, hc⟩ := ho.due he
      exact Nat.le_trans (h.next x hx t ht) (Nat.le_trans hc ho.clock)
  fewer := by
    rw [ho.signals]
    refine Nat.le_trans ?_ (Nat.add_le_add_right h.fewer _)
    dsimp only
    cases s.pending <;> cases e.expires <;> simp

theorem timeout : Calm μ m c₀ { s with timers := s.timers.timeout μ } := by
  have hm := h.onward h.timers.onward_timeout h.timers.timeout
  simpa only [TimerEvent.expires, Bool.or_false] using hm

theorem thread (t : Thread) : Calm μ m c₀ { s with thread := t } :=
  ⟨h.timers, h.spaced, h.fewer, h.past, h.pending, h.next⟩

theorem raised (hr : s.Raised μ s') : s'.Calm μ m c₀ := by
  have ht := h.timeout
  cases hr
  case other running pending entered hp _ =>
    refine ⟨ht.timers, ht.spaced, Nat.le_trans ?_ ht.fewer, ht.past, fun h => ht.pending (hp h), ht.next⟩
    cases pending
    case false => exact Nat.le_add_right ..
    case true  => rw [hp rfl]
  case alarm t hp =>
    have hf := ht.fewer
    rw [hp] at hf
    constructor
    case timers  => exact ht.timers
    case spaced  => exact h.spaced.cons fun x hx => h.pending hp x hx
    case fewer   => exact hf
    case past    => exact fun x hx => Option.some.inj hx ▸ Nat.le_of_eq Timers.timeout_clock.symm
    case pending => exact nofun
    case next    => exact fun x hx => Option.some.inj hx ▸ h.timers.le_deadline

theorem step (hg : s.Prompt μ m e) (hs : s.step c μ e = some s') : s'.Calm μ m c₀ := by
  cases e
  case timer e =>
    obtain ⟨t, ht, hs⟩ := Option.bind_eq_some_iff.mp hs
    obtain rfl := Option.some.inj hs
    exact h.onward (h.timers.onward hg.slow ht) (h.timers.step hg.slow ⟨ht⟩)
  case thread e =>
    obtain ⟨t, rfl⟩ | hr := step_thread hs
    case inl => exact h.thread t
    case inr => exact h.raised hr

end Calm

-- The main thread is in one alarm at most, and this is the last one.
structure Unnested (m : Nat) (s : System) : Prop where
  single : s.nested.length ≤ 1
  last   : ∀ x ∈ s.nested, s.alarms.head? = some x ∧ s.timers.clock < x + m

theorem start_unnested : (start c₀ regs mem).Unnested m where
  single := Nat.zero_le _
  last   := nofun

namespace Unnested

variable (h : s.Unnested m) (hc : s.Calm μ m c₀)
include h hc

-- No signal is under way while an alarm is handled.
theorem pending : ∀ x ∈ s.nested, s.pending = false := by
  intro x hx
  have ⟨ha, hlt⟩ := h.last x hx
  refine Bool.eq_false_iff.mpr fun hp => ?_
  exact Nat.not_le.mpr hlt (hc.pending hp x ha)

theorem raised (hm : 0 < m) (hr : s.Raised μ s') : s'.Unnested m := by
  cases hr
  case other he =>
    refine ⟨Nat.le_trans he.length_le h.single, fun x hx => ?_⟩
    have ⟨ha, hlt⟩ := h.last x (he.subset hx)
    exact ⟨ha, Nat.lt_of_le_of_lt (Nat.le_of_eq Timers.timeout_clock) hlt⟩
  case alarm t hp =>
    have hn : s.nested = [] := by
      refine List.eq_nil_iff_forall_not_mem.mpr fun x hx => ?_
      rw [h.pending hc x hx] at hp
      contradiction
    have hn' : nested { s with
        timers := s.timers.timeout μ, thread := t, pending := false
        entered := some s.timers.clock :: s.entered, alarms := s.timers.clock :: s.alarms } =
        [s.timers.clock] := congrArg (s.timers.clock :: ·) hn
    constructor <;> rw [hn']
    case single => exact Nat.le_refl 1
    case last   =>
      intro x hx
      rw [List.mem_singleton.mp hx]
      refine ⟨rfl, ?_⟩
      dsimp only
      rw [Timers.timeout_clock]
      exact Nat.lt_add_of_pos_right hm

theorem step (hm : 0 < m) (hg : s.Prompt μ m e) (hs : s.step c μ e = some s') : s'.Unnested m := by
  cases e
  case thread e =>
    obtain ⟨t, rfl⟩ | hr := step_thread hs
    case inl => exact ⟨h.single, h.last⟩
    case inr => exact h.raised hc hm hr
  case timer e =>
    obtain ⟨t, ht, hs⟩ := Option.bind_eq_some_iff.mp hs
    obtain rfl := Option.some.inj hs
    refine ⟨h.single, fun x hx => ?_⟩
    have ⟨ha, hlt⟩ := h.last x hx
    refine ⟨ha, ?_⟩
    by_cases hp : ∀ n, e ≠ .pass n
    case pos => exact Nat.lt_of_le_of_lt (Nat.le_of_eq (Timers.step_clock ht hp)) hlt
    case neg =>
      obtain ⟨n, rfl⟩ := not_forall_not.mp hp
      exact Option.some.inj ht ▸ hg x hx

end Unnested

-- If no timer is faster than `m`, and it takes less time to handle each alarm, then alarms are never
-- nested, there are never more of them than signals, and they are not closer to each other than `m`.
theorem alarms_not_nested (hm : 0 < m)
    (hr : Run (Guarded (Prompt μ m) (SystemStep c μ)) (start c₀ regs mem) es s) :
    s.nested.length ≤ 1 ∧ (s.alarms.IsChain fun x y => y + m ≤ x) ∧
    s.alarms.length + (if s.pending then 1 else 0) ≤ s.timers.signals.length := by
  have ⟨hu, hc⟩ : s.Unnested m ∧ s.Calm μ m c₀ :=
    hr.invariant (P := fun s => s.Unnested m ∧ s.Calm μ m c₀) ⟨start_unnested, start_calm⟩
      fun ⟨hu, hc⟩ ⟨hg, ⟨hs⟩⟩ => ⟨hu.step hc hm hg hs, hc.step hg hs⟩
  exact ⟨hu.single, hc.spaced, hc.fewer⟩

def fiveMicros : Itimerval where
  it_interval := { tv_sec := 0, tv_usec := 5 }
  it_value    := { tv_sec := 0, tv_usec := 5 }

-- The main thread at the beginning of the handler.
def handling : Thread :=
  (Thread.alarmed.step Thread.oneHandler (.exception 0xff 0 0)).getD Thread.alarmed

-- There is an alarm, and the handler takes three microseconds. Another message is received before the
-- next alarm.
def twoAlarms : List SystemEvent :=
  [.thread (.signal SIGALRM 0x1000), .timer (.setitimer 0 fiveMicros false), .timer .message,
    .timer (.pass 5), .timer .expire, .thread (.exception 0xff 0 0), .timer (.pass 3),
    .thread (.run (handling.regs.ret handling.mem) handling.mem), .thread (.exception 6 0 0),
    .timer (.pass 2), .timer .message, .timer (.pass 5), .timer .expire,
    .thread (.exception 0xff 0 0)]

theorem run_twice : ∃ s,
    Run (Guarded (Prompt id 5) (SystemStep Thread.oneHandler id)) (start 7 Thread.interrupted fun _ => 0)
      twoAlarms s ∧ s.nested = [22] ∧ s.alarms = [22, 12] := by
  have hset : Timers.Slow id 5 (.boot 7) (.setitimer 0 fiveMicros false) :=
    fun _ => ⟨.inr (by decide), .inr (by decide)⟩
  refine ⟨_, .cons ⟨trivial, ⟨rfl⟩⟩ <| .cons ⟨hset, ⟨rfl⟩⟩ <| .cons ⟨trivial, ⟨rfl⟩⟩ <|
    .cons ⟨nofun, ⟨rfl⟩⟩ <| .cons ⟨trivial, ⟨rfl⟩⟩ <| .cons ⟨trivial, ⟨rfl⟩⟩ <|
    .cons ⟨fun x hx => ?_, ⟨rfl⟩⟩ <| .cons ⟨trivial, ⟨rfl⟩⟩ <| .cons ⟨trivial, ⟨rfl⟩⟩ <|
    .cons ⟨nofun, ⟨rfl⟩⟩ <| .cons ⟨trivial, ⟨rfl⟩⟩ <| .cons ⟨nofun, ⟨rfl⟩⟩ <|
    .cons ⟨trivial, ⟨rfl⟩⟩ <| .cons ⟨trivial, ⟨rfl⟩⟩ .refl, rfl, rfl⟩
  rw [List.mem_singleton.mp hx]
  decide

theorem alarms_not_nested_twice : ∃ s : System, s.nested = [22] ∧ s.alarms = [22, 12] ∧
    s.nested.length ≤ 1 ∧ (s.alarms.IsChain fun x y => y + 5 ≤ x) ∧
    s.alarms.length + (if s.pending then 1 else 0) ≤ s.timers.signals.length := by
  have ⟨s, hr, hn, ha⟩ := run_twice
  exact ⟨s, hn, ha, alarms_not_nested (by decide) hr⟩

end System
end LibSig
