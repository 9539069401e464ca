import Kpr.LibSig.Timer
import Mathlib.Data.List.Chain

namespace LibSig

variable {μ : Nat → Nat} {s s' s₀ : Timers} {e : TimerEvent} {es : List TimerEvent}
  {new : Itimerval} {old : Bool} {errno : Int} {m n t which c₀ : Nat}

-- The timers which can be set.
structure Itimerval.Settable (new : Itimerval) (which : Nat) : Prop where
  which    : which = ITIMER_REAL
  value    : 0 ≤ new.it_value.tv_usec ∧ new.it_value.tv_usec ≤ 999999
  interval : 0 ≤ new.it_interval.tv_usec ∧ new.it_interval.tv_usec ≤ 999999

namespace Timers

theorem setitimer'_cases (s : Timers) (which : Nat) (new : Itimerval) (old : Bool) (errno : Int) :
    ∃ o, s.setitimer' which new old errno = (-1, EINVAL, o, s) ∨ new.Settable which ∧
      s.setitimer' which new old errno = (0, errno, o, { s with current_itimerval := new }) := by
  rw [setitimer']
  split
  case isTrue    => exact ⟨_, .inl rfl⟩
  case isFalse h =>
    dsimp only
    split
    case isTrue     => exact ⟨_, .inl rfl⟩
    case isFalse hu => exact ⟨_, .inr ⟨⟨not_not.mp h, by omega, by omega⟩, rfl⟩⟩

-- A timer which cannot be set is left as it is. The error which is reported is not the one of the
-- member function.
theorem setitimer_cases : ∃ o, s.setitimer which new old errno = (-1, 1, o, s) ∨
    new.Settable which ∧
      s.setitimer which new old errno = (0, errno, o, { s with current_itimerval := new }) := by
  obtain ⟨o, h | ⟨hn, h⟩⟩ := setitimer'_cases s which new old errno
  case inl => rw [setitimer, h]; exact ⟨o, .inl rfl⟩
  case inr => rw [setitimer, h]; exact ⟨o, .inr ⟨hn, rfl⟩⟩

-- The timer is off, or the thread waits for some time.
def Waits (μ : Nat → Nat) (m : Nat) (t : Timeval) : Prop :=
  t.tv_sec = 0 ∧ t.tv_usec = 0 ∨ m ≤ μ t.micros

-- There are no alarms, and no timers which are faster than `m`.
def Slow (μ : Nat → Nat) (m : Nat) (_ : Timers) : TimerEvent → Prop
  | .alarm _               => False
  | .setitimer which new _ =>
    new.Settable which → Waits μ m new.it_value ∧ Waits μ m new.it_interval
  | _                      => True

-- Signals come in intervals of at least `m`, and this also holds for the next one.
structure Spaced (μ : Nat → Nat) (m c₀ : Nat) (s : Timers) : Prop where
  noAlarm  : s.alarm_timeout = 0
  value    : Waits μ m s.current_itimerval.it_value
  interval : Waits μ m s.current_itimerval.it_interval
  elapsed  : c₀ + s.signals.length * m ≤ s.clock
  last     : ∀ x ∈ s.signals.head?, x ≤ s.clock
  spaced   : s.signals.IsChain fun x y => y + m ≤ x
  next     : ∀ t ∈ s.deadline, c₀ + (s.signals.length + 1) * m ≤ t ∧
    ∀ x ∈ s.signals.head?, x + m ≤ t

theorem boot_spaced : (boot c₀).Spaced μ m c₀ where
  noAlarm  := rfl
  value    := .inl ⟨rfl, rfl⟩
  interval := .inl ⟨rfl, rfl⟩
  elapsed  := by simp [boot]
  last     := nofun
  spaced   := .nil
  next     := nofun

-- What the thread has waited for before does not matter.
theorem timeout_deadline {d : Option Nat} : timeout μ { s with deadline := d } = s.timeout μ := by
  unfold timeout
  rfl

theorem timeout_eq :
    s.timeout μ = { s with alarm_timeout := 0, deadline := (s.timeout μ).deadline } := by
  by_cases h : s.alarm_timeout = 0
  case neg => rw [timeout, if_pos h]
  case pos =>
    rw [timeout, if_neg (not_not_intro h), ← h]
    split <;> rfl

theorem step_expire (h : s.step μ .expire = some s') :
    ∃ t ∈ s.deadline, t ≤ s.clock ∧ s' = s.error.timeout μ := by
  rw [Timers.step] at h
  split at h
  case h_2    => contradiction
  case h_1 ht =>
    split at h
    case isFalse   => contradiction
    case isTrue hc => exact ⟨_, ht, hc, (Option.some.inj h).symm⟩

theorem timeout_signals : (s.timeout μ).signals = s.signals := by
  rw [timeout_eq]

theorem timeout_clock : (s.timeout μ).clock = s.clock := by
  rw [timeout_eq]

namespace Spaced

variable (h : s.Spaced μ m c₀)
include h

-- From now on, the thread waits for some time.
theorem le_deadline : ∀ t ∈ (s.timeout μ).deadline, s.clock + m ≤ t := by
  rw [Timers.timeout, if_neg (not_not_intro h.noAlarm)]
  split
  case isTrue     => exact nofun
  case isFalse hz =>
    intro t ht
    have hm := h.value.resolve_left fun hz' => hz hz'
    obtain rfl := Option.some.inj ht
    exact Nat.add_le_add_left hm s.clock

theorem pass : Spaced μ m c₀ { s with clock := s.clock + n } where
  noAlarm      := h.noAlarm
  value        := h.value
  interval     := h.interval
  elapsed      := Nat.le_add_right_of_le h.elapsed
  last x hx    := Nat.le_add_right_of_le (h.last x hx)
  spaced       := h.spaced
  next         := h.next

theorem setitimer (hg : s.Slow μ m (.setitimer which new old)) :
    (s.setitimer which new old 0).snd.snd.snd.Spaced μ m c₀ := by
  obtain ⟨_, he | ⟨hn, he⟩⟩ := setitimer_cases (s := s)
  case inl => rw [he]; exact h
  case inr =>
    have ⟨hv, hi⟩ := hg hn
    rw [he]
    exact ⟨h.noAlarm, hv, hi, h.elapsed, h.last, h.spaced, h.next⟩

theorem timeout : (s.timeout μ).Spaced μ m c₀ := by
  have hd := h.le_deadline
  rw [timeout_eq] at hd ⊢
  refine ⟨rfl, h.value, h.interval, h.elapsed, h.last, h.spaced, fun t ht => ?_⟩
  have ht := hd t ht
  constructor
  case left =>
    rw [Nat.succ_mul, ← Nat.add_assoc]
    exact Nat.le_trans (Nat.add_le_add_right h.elapsed m) ht
  case right => exact fun x hx => Nat.le_trans (Nat.add_le_add_right (h.last x hx) m) ht

theorem error (ht : t ∈ s.deadline) (hc : t ≤ s.clock) :
    Spaced μ m c₀ { s.error with deadline := none } := by
  have ⟨hn, hx⟩ := h.next t ht
  constructor
  case noAlarm  => exact h.noAlarm
  case value    => exact h.interval
  case interval => exact h.interval
  case elapsed  => exact Nat.le_trans hn hc
  case last     => exact fun x hx => Option.some.inj hx ▸ Nat.le_refl _
  case next     => exact nofun
  case spaced   =>
    exact h.spaced.cons fun x hm => Nat.le_trans (hx x hm) hc

theorem step (hg : s.Slow μ m e) (hs : TimerStep μ s e s') : s'.Spaced μ m c₀ := by
  obtain ⟨hs⟩ := hs
  cases e
  case pass n                  => exact Option.some.inj hs ▸ h.pass
  case alarm n                 => exact absurd hg id
  case setitimer which new old => exact Option.some.inj hs ▸ h.setitimer hg
  case message                 => exact Option.some.inj hs ▸ h.timeout
  case expire                  =>
    obtain ⟨t, ht, hc, rfl⟩ := step_expire hs
    rw [← timeout_deadline (d := none)]
    exact (h.error ht hc).timeout

end Spaced

-- If no timer is faster than `m`, then signals are never closer to each other than `m`, whenever
-- messages are received, and there are never more of them than there have been intervals.
theorem signals_spaced (hr : Run (Guarded (Slow μ m) (TimerStep μ)) (boot c₀) es s) :
    (s.signals.IsChain fun x y => y + m ≤ x) ∧ c₀ + s.signals.length * m ≤ s.clock := by
  have h : s.Spaced μ m c₀ := hr.invariant boot_spaced fun h ht => h.step ht.guard ht.step
  exact ⟨h.spaced, h.elapsed⟩

-- A timer of five microseconds expires twice. In between, a message starts the interval again, and
-- another timer is rejected.
theorem signals_spaced_twice : ∃ s, Run (Guarded (Slow id 5) (TimerStep id)) (boot 7)
      [.setitimer 0 ⟨⟨0, 5⟩, ⟨0, 5⟩⟩ false, .message, .pass 5, .expire, .pass 2, .message,
        .setitimer 0 ⟨⟨0, 1⟩, ⟨0, -1⟩⟩ false, .pass 5, .expire] s ∧
    s.signals = [19, 12] ∧ 7 + s.signals.length * 5 ≤ s.clock := by
  have hw : Waits id 5 ⟨0, 5⟩ := .inr (by decide)
  have hr : Run (Guarded (Slow id 5) (TimerStep id)) (boot 7)
      [.setitimer 0 ⟨⟨0, 5⟩, ⟨0, 5⟩⟩ false, .message, .pass 5, .expire, .pass 2, .message,
        .setitimer 0 ⟨⟨0, 1⟩, ⟨0, -1⟩⟩ false, .pass 5, .expire] _ :=
    .cons ⟨fun _ => ⟨hw, hw⟩, ⟨rfl⟩⟩ <| .cons ⟨trivial, ⟨rfl⟩⟩ <| .cons ⟨trivial, ⟨rfl⟩⟩ <|
      .cons ⟨trivial, ⟨rfl⟩⟩ <| .cons ⟨trivial, ⟨rfl⟩⟩ <| .cons ⟨trivial, ⟨rfl⟩⟩ <|
      .cons ⟨fun hn => absurd hn.value.left (by decide), ⟨rfl⟩⟩ <| .cons ⟨trivial, ⟨rfl⟩⟩ <|
      .cons ⟨trivial, ⟨rfl⟩⟩ .refl
  exact ⟨_, hr, rfl, (signals_spaced hr).right⟩

-- Alarms without timers.

def Off (s : Timers) : Prop :=
  s.current_itimerval = { it_interval := .zero, it_value := .zero }

-- Nothing is set.
def Passive : TimerEvent → Prop
  | .alarm _ | .setitimer .. => False
  | _                        => True

-- The first thing that happens to the signal thread.
def first (es : List TimerEvent) : Option TimerEvent :=
  es.find? fun | .pass _ => false | _ => true

-- The thread waits for nothing but messages.
structure Idle (s : Timers) : Prop where
  noAlarm  : s.alarm_timeout = 0
  off      : s.Off
  deadline : s.deadline = none

-- The thread waits for the alarm at `t`.
structure Armed (t : Nat) (s : Timers) : Prop where
  noAlarm  : s.alarm_timeout = 0
  off      : s.Off
  deadline : s.deadline = some t

theorem timeout_idle (ha : s.alarm_timeout = 0) (ho : s.Off) :
    (s.timeout μ).Idle ∧ (s.timeout μ).signals = s.signals := by
  have hz : s.current_itimerval.it_value.tv_sec = 0 ∧ s.current_itimerval.it_value.tv_usec = 0 := by
    rw [ho]
    exact ⟨rfl, rfl⟩
  rw [timeout, if_neg (not_not_intro ha), if_pos hz]
  exact ⟨⟨ha, ho, rfl⟩, rfl⟩

theorem Idle.step (h : s.Idle) (hp : Passive e) (hs : s.step μ e = some s') :
    s'.Idle ∧ s'.signals = s.signals := by
  cases e
  case pass n    => exact Option.some.inj hs ▸ ⟨⟨h.noAlarm, h.off, h.deadline⟩, rfl⟩
  case alarm     => exact absurd hp id
  case setitimer => exact absurd hp id
  case message   => exact Option.some.inj hs ▸ timeout_idle h.noAlarm h.off
  case expire    =>
    rw [Timers.step, h.deadline] at hs
    contradiction

-- What has become of an alarm at `t` after `es`.
structure Outcome (t : Nat) (sg : List Nat) (es : List TimerEvent) (s : Timers) : Prop where
  pending : first es = none → s.Armed t ∧ s.signals = sg
  lost    : ∀ e ∈ first es, e ≠ .expire → s.Idle ∧ s.signals = sg
  expired : first es = some .expire → s.Idle ∧ ∃ x, t ≤ x ∧ s.signals = x :: sg

theorem first_snoc : first (es ++ [e]) = (first es).or (first [e]) :=
  List.find?_append

theorem Armed.expire (h : s.Armed t) (hs : s.step μ .expire = some s') :
    s'.Idle ∧ ∃ x, t ≤ x ∧ s'.signals = x :: s.signals := by
  obtain ⟨d, hd, hc, rfl⟩ := step_expire hs
  cases Option.some.inj (h.deadline.symm.trans hd)
  have ho : s.error.Off := by
    rw [Off, Timers.error, h.off]
  have ⟨hi, hsg⟩ := timeout_idle (μ := μ) (s := s.error) h.noAlarm ho
  exact ⟨hi, s.clock, hc, hsg⟩

theorem Outcome.step {sg : List Nat} (h : Outcome t sg es s) (hp : Passive e)
    (hs : s.step μ e = some s') : Outcome t sg (es ++ [e]) s' := by
  cases hf : first es
  case some f =>
    have hf' : first (es ++ [e]) = some f := by rw [first_snoc, hf, Option.some_or]
    constructor <;> rw [hf']
    case pending => exact nofun
    case lost    =>
      intro _ he hne
      have ⟨hi, hsg⟩ := h.lost f hf (Option.some.inj he ▸ hne)
      exact (hi.step hp hs).imp_right (·.trans hsg)
    case expired =>
      intro he
      have ⟨hi, x, hx, hsg⟩ := h.expired (hf.trans he)
      exact (hi.step hp hs).imp_right fun h' => ⟨x, hx, h'.trans hsg⟩
  case none =>
    have ⟨ha, hsg⟩ := h.pending hf
    have hf' : first (es ++ [e]) = first [e] := by rw [first_snoc, hf, Option.none_or]
    cases e
    case alarm     => exact absurd hp id
    case setitimer => exact absurd hp id
    case pass n    =>
      constructor <;> rw [hf']
      case pending => exact fun _ => Option.some.inj hs ▸ ⟨⟨ha.noAlarm, ha.off, ha.deadline⟩, hsg⟩
      case lost    => exact nofun
      case expired => exact nofun
    case message =>
      constructor <;> rw [hf']
      case pending => exact nofun
      case expired => exact nofun
      case lost    =>
        intro _ _ _
        exact Option.some.inj hs ▸ (timeout_idle ha.noAlarm ha.off).imp_right (·.trans hsg)
    case expire =>
      constructor <;> rw [hf']
      case pending => exact nofun
      case lost    => exact fun _ he hne => absurd (Option.some.inj he).symm hne
      case expired => exact fun _ => hsg ▸ ha.expire hs

theorem outcome_of_run {sg : List Nat} (h : s.Armed t) (hsg : s.signals = sg)
    (hr : Run (TimerStep μ) s es s') (hp : ∀ e ∈ es, Passive e) : Outcome t sg es s' := by
  induction hr
  case refl => exact ⟨fun _ => ⟨h, hsg⟩, nofun, nofun⟩
  case snoc es s₁ e s₂ _ hs hi =>
    have ⟨hs⟩ := hs
    have ho := hi fun e he => hp e (List.mem_append_left _ he)
    exact ho.step (hp e (List.mem_append_right _ List.mem_cons_self)) hs

theorem alarm_armed (ho : s.Off) (hc : 0 < s.clock) :
    ((s.alarm n).timeout μ).Armed (s.clock + n * 1000000 % 2 ^ 32) := by
  rw [alarm]
  generalize n * 1000000 % 2 ^ 32 = k
  have hne : s.clock + k ≠ 0 := by omega
  rw [timeout, if_pos hne]
  exact ⟨rfl, ho, rfl⟩

theorem alarm_outcome (ho : s.Off) (hc : 0 < s.clock) (hp : ∀ e ∈ es, Passive e)
    (hr : Run (TimerStep μ) ((s.alarm n).timeout μ) es s') :
    Outcome (s.clock + n * 1000000 % 2 ^ 32) s.signals es s' := by
  apply outcome_of_run (alarm_armed ho hc) _ hr hp
  rw [timeout_signals, alarm]

-- There is one signal for an alarm if the next thing that happens to the signal thread is the end of
-- its waiting. Any message which is received before makes the alarm go lost for good.
theorem alarm_signals (ho : s.Off) (hc : 0 < s.clock) (hp : ∀ e ∈ es, Passive e)
    (hr : Run (TimerStep μ) ((s.alarm n).timeout μ) es s') :
    (first es = some .expire →
      ∃ x, s.clock + n * 1000000 % 2 ^ 32 ≤ x ∧ s'.signals = x :: s.signals) ∧
    (first es ≠ some .expire → s'.signals = s.signals) := by
  have h := alarm_outcome ho hc hp hr
  refine ⟨fun hf => (h.expired hf).right, fun hne => ?_⟩
  cases hf : first es
  case none   => exact (h.pending hf).right
  case some e => exact (h.lost e hf fun he => hne (he ▸ hf)).right

-- The signal thread is woken up by a ping.
theorem alarm_signals_lost : ∃ s', Run (TimerStep id) (((boot 1).alarm 3).timeout id)
    [.message, .pass 3000000] s' ∧ s'.signals = [] := by
  have hr : Run (TimerStep id) (((boot 1).alarm 3).timeout id) [.message, .pass 3000000] _ :=
    .cons ⟨rfl⟩ <| .cons ⟨rfl⟩ .refl
  have hp : ∀ e ∈ [.message, .pass 3000000], Passive e := by simp [Passive]
  have ho : (boot 1).Off := rfl
  exact ⟨_, hr, (alarm_signals ho (by decide) hp hr).right nofun⟩

-- The thread waits until the alarm.
theorem Armed.run_expire (h : s.Armed t) (ht : s.clock + n = t) :
    ∃ s', Run (TimerStep μ) s [.pass n, .expire] s' ∧ s'.signals = t :: s.signals := by
  have hp : TimerStep μ s (.pass n) { s with clock := s.clock + n } := ⟨rfl⟩
  have he : TimerStep μ { s with clock := s.clock + n } .expire
      (Timers.timeout μ (error { s with clock := s.clock + n })) := by
    constructor
    simp only [Timers.step, h.deadline]
    exact if_pos ht.ge
  rw [← ht]
  exact ⟨_, .cons hp <| .cons he .refl, timeout_signals⟩

-- The earliest time for the signal.
theorem alarm_earliest (ho : s.Off) (hc : 0 < s.clock) : ∃ es s', (∀ e ∈ es, Passive e) ∧
    Run (TimerStep μ) ((s.alarm n).timeout μ) es s' ∧
    s'.signals = (s.clock + n * 1000000 % 2 ^ 32) :: s.signals := by
  have ha := alarm_armed (μ := μ) (n := n) ho hc
  rw [alarm] at ha ⊢
  generalize n * 1000000 % 2 ^ 32 = k at ha ⊢
  have hclock : (timeout μ { s with alarm_timeout := s.clock + k }).clock = s.clock := timeout_clock
  have ⟨s', hr, hsg⟩ := ha.run_expire (μ := μ) (congrArg (· + k) hclock)
  rw [timeout_signals] at hsg
  exact ⟨_, s', by simp [Passive], hr, hsg⟩

-- Alarms are never early if and only if the time in microseconds has 32 bits.
theorem alarm_on_time_iff (ho : s.Off) (hc : 0 < s.clock) :
    (∀ es s' x, (∀ e ∈ es, Passive e) → Run (TimerStep μ) ((s.alarm n).timeout μ) es s' →
      s'.signals = x :: s.signals → s.clock + n * 1000000 ≤ x) ↔ n ≤ 4294 := by
  constructor
  case mp =>
    intro h
    have ⟨es, s', hp, hr, hsg⟩ := alarm_earliest (μ := μ) (n := n) ho hc
    have hle := h es s' _ hp hr hsg
    omega
  case mpr =>
    intro hn es s' x hp hr hx
    have ho := alarm_outcome ho hc hp hr
    have hmod : n * 1000000 % 2 ^ 32 = n * 1000000 := Nat.mod_eq_of_lt (by omega)
    have hne : s'.signals ≠ s.signals := by
      rw [hx]
      exact List.cons_ne_self x _
    cases hf : first es
    case none   => exact absurd (ho.pending hf).right hne
    case some e =>
      by_cases he : e = .expire
      case neg => exact absurd (ho.lost e hf he).right hne
      case pos =>
        have ⟨_, y, hy, hsg⟩ := ho.expired (he ▸ hf)
        have hxy := (List.cons.inj (hx.symm.trans hsg)).left
        omega

theorem alarm_on_time_hour :
    (∀ es s' x, (∀ e ∈ es, Passive e) → Run (TimerStep id) (((boot 1).alarm 3600).timeout id) es s' →
      s'.signals = x :: (boot 1).signals → (boot 1).clock + 3600 * 1000000 ≤ x) ∧ 3600 ≤ 4294 := by
  have ho : (boot 1).Off := rfl
  have hn : 3600 ≤ 4294 := by decide
  exact ⟨(alarm_on_time_iff ho (by decide)).mpr hn, hn⟩

end Timers
end LibSig
