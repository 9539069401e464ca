import Kpr.LibSig.Theorems.Timer

namespace LibSig

variable {μ : Nat → Nat} {s s' s₀ s₁ : Timers} {e : TimerEvent} {es : List TimerEvent}
  {new : Itimerval} {old : Bool} {o : Option Itimerval} {errno errno' : Int} {c₀ : Nat}
  {sg : List Nat} {which : Nat}

namespace Timeval

-- The number of microseconds, however large it is.
def total (t : Timeval) : Nat :=
  (t.tv_sec * 1000000 + t.tv_usec).toNat

-- The number of microseconds is positive and has 32 bits, and the kernel waits exactly that long.
structure Exact (μ : Nat → Nat) (t : Timeval) : Prop where
  pos  : 0 < t.tv_sec * 1000000 + t.tv_usec
  lt   : t.tv_sec * 1000000 + t.tv_usec < 2 ^ 32
  wait : μ t.total = t.total

namespace Exact

variable {t : Timeval} (h : t.Exact μ)
include h

theorem ne_zero : ¬(t.tv_sec = 0 ∧ t.tv_usec = 0) := by
  rintro ⟨hs, hu⟩
  have hp := h.pos
  rw [hs, hu] at hp
  contradiction

theorem micros_eq : μ t.micros = t.total := by
  have hm : t.micros = t.total := congrArg Int.toNat (Int.emod_eq_of_lt (Int.le_of_lt h.pos) h.lt)
  rw [hm, h.wait]

end Exact
end Timeval

namespace Timers

-- The times of the first `n` signals of a timer which is set at `c₀`, latest first.
def ideal (new : Itimerval) (c₀ n : Nat) : List Nat :=
  ((List.range n).map fun k => c₀ + new.it_value.total + k * new.it_interval.total).reverse

-- All signals since those in `sg` have come at their times, and the thread waits for the next one.
structure OnTime (new : Itimerval) (c₀ : Nat) (sg : List Nat) (s : Timers) : Prop where
  signals  : s.signals = ideal new c₀ (s.signals.length - sg.length) ++ sg
  deadline : s.deadline = some (c₀ + new.it_value.total +
    (s.signals.length - sg.length) * new.it_interval.total)

-- When a message is received, the thread has not waited yet, and it is not late when it has waited
-- long enough.
def Undisturbed (s : Timers) : TimerEvent → Prop
  | .message => s.deadline = some (s.clock + s.current_itimerval.it_value.total)
  | .expire  => s.deadline = some s.clock
  | _        => True

-- The timer is the one that has been set, and it has been reloaded if there was a signal.
structure Kept (new : Itimerval) (sg : List Nat) (s : Timers) : Prop where
  noAlarm : s.alarm_timeout = 0
  le      : sg.length ≤ s.signals.length
  timer   : s.current_itimerval = { it_interval := new.it_interval
                                    it_value    := if s.signals.length = sg.length then new.it_value
                                                   else new.it_interval }

theorem ideal_succ {n : Nat} : ideal new c₀ (n + 1) =
    (c₀ + new.it_value.total + n * new.it_interval.total) :: ideal new c₀ n := by
  simp [ideal, List.range_succ]

theorem Kept.error (h : s.Kept new sg) : s.error.Kept new sg where
  noAlarm := h.noAlarm
  le      := Nat.le_succ_of_le h.le
  timer   := by
    have hle := h.le
    have hne : s.signals.length + 1 ≠ sg.length := by omega
    simp [Timers.error, h.timer, hne]

section

variable (hv : new.it_value.Exact μ) (hi : new.it_interval.Exact μ)
include hv hi

theorem Kept.timeout (h : s.Kept new sg) : s.timeout μ =
    { s with deadline := some (s.clock + s.current_itimerval.it_value.total) } := by
  have hx : s.current_itimerval.it_value.Exact μ := by
    rw [h.timer]
    dsimp only
    split
    case isTrue  => exact hv
    case isFalse => exact hi
  rw [Timers.timeout, if_neg (not_not_intro h.noAlarm), if_neg hx.ne_zero, hx.micros_eq]

theorem Kept.step (h : s.Kept new sg) (hp : Passive e) (hs : s.step μ e = some s') :
    s'.Kept new sg := by
  cases e
  case alarm     => exact absurd hp id
  case setitimer => exact absurd hp id
  case pass n    => exact Option.some.inj hs ▸ ⟨h.noAlarm, h.le, h.timer⟩
  case message   =>
    rw [← Option.some.inj hs, h.timeout hv hi]
    exact ⟨h.noAlarm, h.le, h.timer⟩
  case expire    =>
    obtain ⟨_, _, _, rfl⟩ := step_expire hs
    have he := h.error
    rw [he.timeout hv hi]
    exact ⟨he.noAlarm, he.le, he.timer⟩

-- A message puts the next signal off, and so does a thread which is late.
theorem onTime_step_iff (hk : s.Kept new sg) (h : s.OnTime new c₀ sg) (hp : Passive e)
    (hs : s.step μ e = some s') : s'.OnTime new c₀ sg ↔ s.Undisturbed e := by
  cases e
  case alarm     => exact absurd hp id
  case setitimer => exact absurd hp id
  case pass n    => exact Option.some.inj hs ▸ iff_of_true ⟨h.signals, h.deadline⟩ trivial
  case message   =>
    rw [← Option.some.inj hs, hk.timeout hv hi, Undisturbed, h.deadline]
    exact ⟨fun h' => h'.deadline.symm, fun he => ⟨h.signals, he.symm⟩⟩
  case expire    =>
    obtain ⟨_, _, _, rfl⟩ := step_expire hs
    have hle := hk.le
    have hn : s.error.signals.length - sg.length = s.signals.length - sg.length + 1 :=
      Nat.succ_sub hle
    have hm : s.error.current_itimerval.it_value = new.it_interval := by
      simp [Timers.error, hk.timer]
    rw [hk.error.timeout hv hi, hm, Undisturbed, h.deadline]
    constructor
    case mp =>
      intro h'
      have hd := h'.deadline
      dsimp only at hd
      rw [hn, Nat.succ_mul] at hd
      have hd : s.clock + new.it_interval.total = _ := Option.some.inj hd
      exact congrArg some (by omega)
    case mpr =>
      intro hc
      have hc := Option.some.inj hc
      constructor <;> dsimp only
      case deadline =>
        rw [hn, Nat.succ_mul, ← Nat.add_assoc, hc]
        rfl
      case signals =>
        rw [hn, ideal_succ, hc, List.cons_append, ← h.signals]
        rfl

end

theorem setitimer_kept (ha : s₀.alarm_timeout = 0)
    (hs : s₀.setitimer which new old errno = (0, errno', o, s₁)) :
    s₁.Kept new s₀.signals ∧ s₁ = { s₀ with current_itimerval := new } := by
  obtain ⟨_, he | ⟨_, he⟩⟩ : ∃ o, s₀.setitimer which new old errno = (-1, 1, o, s₀) ∨
      new.Settable which ∧
        s₀.setitimer which new old errno = (0, errno, o, { s₀ with current_itimerval := new }) :=
    setitimer_cases
  case inl => exact nomatch he.symm.trans hs
  case inr =>
    cases he.symm.trans hs
    exact ⟨⟨ha, Nat.le_refl _, (if_pos rfl).symm ▸ rfl⟩, rfl⟩

-- From the moment at which a timer is set, its signals come at their times, one interval after the
-- other, if and only if no message is received while the thread waits and the thread is never late.
-- What is read from the timer is not the time which remains.
theorem periodic_iff (ha : s₀.alarm_timeout = 0) (hv : new.it_value.Exact μ)
    (hi : new.it_interval.Exact μ)
    (hs : s₀.setitimer ITIMER_REAL new old errno = (0, errno', o, s₁))
    (hr : Run (Guarded (fun _ => Passive) (TimerStep μ)) (s₁.timeout μ) es s) :
    (Run (Guarded Undisturbed (Guarded (fun _ => Passive) (TimerStep μ))) (s₁.timeout μ) es s ↔
      Run (Reaching (OnTime new s₀.clock s₀.signals) (Guarded (fun _ => Passive) (TimerStep μ)))
        (s₁.timeout μ) es s) ∧
    s.getitimer ITIMER_REAL errno = (0, errno, some {
      it_interval := new.it_interval
      it_value    := if s.signals.length = s₀.signals.length then new.it_value
                     else new.it_interval }) := by
  have ⟨hk, he⟩ := setitimer_kept ha hs
  have ht := hk.timeout hv hi
  have hk₀ : (s₁.timeout μ).Kept new s₀.signals := ht ▸ ⟨hk.noAlarm, hk.le, hk.timer⟩
  have ho₀ : (s₁.timeout μ).OnTime new s₀.clock s₀.signals := by
    rw [ht, he]
    constructor <;> simp [ideal]
  constructor
  case left =>
    refine Run.guarded_iff
      (I := fun s => s.Kept new s₀.signals ∧ s.OnTime new s₀.clock s₀.signals) ⟨hk₀, ho₀⟩ ?_ ?_
    · exact fun ⟨hk, ho⟩ ⟨hp, ⟨hs⟩⟩ => onTime_step_iff hv hi hk ho hp hs
    · exact fun ⟨hk, _⟩ ⟨hp, ⟨hs⟩⟩ ho => ⟨hk.step hv hi hp hs, ho⟩
  case right =>
    have hk : s.Kept new s₀.signals := hr.invariant hk₀ fun hk ⟨hp, ⟨hs⟩⟩ => hk.step hv hi hp hs
    rw [getitimer, if_neg (not_not_intro rfl), hk.timer]

def oneSecondThenFive : Itimerval where
  it_interval := { tv_sec := 0, tv_usec := 5 }
  it_value    := { tv_sec := 1, tv_usec := 10 }

-- Nothing disturbs the thread until the second signal.
theorem periodic_twice : ∃ s, Run (Reaching (OnTime oneSecondThenFive 7 [])
      (Guarded (fun _ => Passive) (TimerStep id)))
      (timeout id { boot 7 with current_itimerval := oneSecondThenFive })
      [.pass 1000010, .expire, .pass 5, .expire] s ∧ s.signals = [1000022, 1000017] := by
  have hr : Run (Guarded Undisturbed (Guarded (fun _ => Passive) (TimerStep id)))
      (timeout id { boot 7 with current_itimerval := oneSecondThenFive })
      [.pass 1000010, .expire, .pass 5, .expire] _ :=
    .cons ⟨trivial, trivial, ⟨rfl⟩⟩ <| .cons ⟨rfl, trivial, ⟨rfl⟩⟩ <|
      .cons ⟨trivial, trivial, ⟨rfl⟩⟩ <| .cons ⟨rfl, trivial, ⟨rfl⟩⟩ .refl
  have hs : (boot 7).setitimer ITIMER_REAL oneSecondThenFive false 0 =
    (0, 0, none, { boot 7 with current_itimerval := oneSecondThenFive }) := rfl
  have hv : oneSecondThenFive.it_value.Exact id := ⟨by decide, by decide, rfl⟩
  have hi : oneSecondThenFive.it_interval.Exact id := ⟨by decide, by decide, rfl⟩
  exact ⟨_, (periodic_iff rfl hv hi hs (hr.mono (·.step))).left.mp hr, rfl⟩

end Timers
end LibSig
