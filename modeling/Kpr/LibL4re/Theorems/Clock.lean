import Kpr.LibL4re.Clock

namespace LibL4re

variable {s s₁ s' : Clocks} {e : ClockEvent} {es : List ClockEvent} {tp : Timespec} {n m c : Int}

theorem toLong_spec (n : Int) :
    -2 ^ 31 ≤ toLong n ∧ toLong n < 2 ^ 31 ∧ ∃ k, n = toLong n + 2 ^ 32 * k := by
  have hl := Int.le_bmod (x := n) (m := 2 ^ 32) (by decide)
  have hu := Int.bmod_lt (x := n) (m := 2 ^ 32) (by decide)
  have hm : (n.bmod (2 ^ 32)) % 2 ^ 32 = n % 2 ^ 32 := Int.bmod_emod
  rw [toLong]
  refine ⟨by omega, by omega, (n - n.bmod (2 ^ 32)) / 2 ^ 32, by omega⟩

theorem toLong_eq (h : -2 ^ 31 ≤ n) (h' : n < 2 ^ 31) : toLong n = n := by
  have ⟨hl, hu, k, hk⟩ := toLong_spec n
  omega

namespace Clocks

theorem clockSettime_realtime :
    s.clockSettime CLOCK_REALTIME tp = some (.ok (s.rtClockSettime tp)) := rfl

theorem clockGettime_realtime :
    s.clockGettime CLOCK_REALTIME = some (.ok s.rtClockGettime) := rfl

-- Clocks other than the real-time clock cannot be set.
theorem clockSettime_other (s : Clocks) (tp : Timespec) (h : n ≠ CLOCK_REALTIME) :
    s.clockSettime n tp = none ∨ s.clockSettime n tp = some (.error ENODEV) := by
  match n with
  | .negSucc _     => exact .inl rfl
  | 0              => exact absurd rfl h
  | 1 | 2 | 3      => exact .inr rfl
  | .ofNat (i + 4) =>
    have hn : Int.ofNat (i + 4) ≥ NCLOCKS := Int.ofNat_le.mpr (Nat.le_add_left 4 i)
    refine .inr ?_
    rw [clockSettime, entry.eq_def, if_pos hn]
    rfl

-- The kernel's clock goes on, and the offset stays the same.
theorem step_unset (hu : Unset s e) (h : s.step e = some s') :
    s.clock ≤ s'.clock ∧ s'.rtClockOffset = s.rtClockOffset := by
  cases e
  case pass micros => exact Option.some.inj h ▸ ⟨Nat.le_add_right .., rfl⟩
  case settime clk_id tp =>
    have hc : clk_id ≠ CLOCK_REALTIME := fun hc => hu tp (hc ▸ rfl)
    rw [step] at h
    cases clockSettime_other s tp hc
    case inl he => rw [he] at h; contradiction
    case inr he => rw [he] at h; exact Option.some.inj h ▸ ⟨Nat.le_refl _, rfl⟩

theorem unset_of_run (hr : Run (Guarded Unset ClockStep) s es s') :
    s.clock ≤ s'.clock ∧ s'.rtClockOffset = s.rtClockOffset :=
  hr.invariant (P := fun s' => s.clock ≤ s'.clock ∧ s'.rtClockOffset = s.rtClockOffset)
    ⟨Nat.le_refl _, rfl⟩ fun ⟨hle, ho⟩ ⟨hu, ⟨hs⟩⟩ =>
      have ⟨hle', ho'⟩ := step_unset hu hs
      ⟨Nat.le_trans hle hle', ho'.trans ho⟩

-- What is read from the real-time clock once it has been set.
theorem rtClockGettime_eq (hc : s.clock ≤ s'.clock)
    (ho : s'.rtClockOffset = (s.rtClockSettime tp).rtClockOffset) :
    s'.rtClockGettime = .ofClock ((toLong (toLong (tp.tv_sec * 1000000) + tp.tv_nsec.tdiv 1000) +
      (s'.clock - s.clock : Nat)) % 2 ^ 64).toNat := by
  rw [rtClockGettime, ho]
  refine congrArg Timespec.ofClock ?_
  dsimp only [rtClockSettime]
  omega

end Clocks

-- The value to which the real-time clock is set has 32 bits.
theorem toLong_micros (h : tp.Normal) :
    -2 ^ 31 ≤ toLong (toLong (tp.tv_sec * 1000000) + tp.tv_nsec.tdiv 1000) ∧
    toLong (toLong (tp.tv_sec * 1000000) + tp.tv_nsec.tdiv 1000) < 2 ^ 31 ∧
    ∃ k, tp.micros = toLong (toLong (tp.tv_sec * 1000000) + tp.tv_nsec.tdiv 1000) + 2 ^ 32 * k := by
  have ⟨_, _, j, hj⟩ := toLong_spec (tp.tv_sec * 1000000)
  have hd : tp.tv_nsec.tdiv 1000 = tp.tv_nsec / 1000 := Int.tdiv_eq_ediv_of_nonneg h.nsec.left
  rw [hd, Timespec.micros]
  have ⟨hl, hu, k, hk⟩ := toLong_spec (toLong (tp.tv_sec * 1000000) + tp.tv_nsec / 1000)
  exact ⟨hl, hu, j + k, by omega⟩

-- A clock which is read is in normal form if its seconds fit.
theorem ofClock_eq {c : Nat} (hc : c < 2 ^ 31 * 1000000) : Timespec.ofClock c = .after c := by
  rw [Timespec.ofClock, Timespec.after, toLong_eq (by omega) (by omega),
    toLong_eq (by omega) (by omega)]
  rfl

theorem ofClock_inj {c : Nat} (h : Timespec.ofClock c = .after n) :
    ∃ j, (c : Int) = n + 2 ^ 32 * 1000000 * j := by
  have ⟨hs, hn⟩ := Timespec.mk.inj h
  rw [toLong_eq (by omega) (by omega)] at hn
  have ⟨_, _, j, hj⟩ := toLong_spec (c / 1000000 : Nat)
  exact ⟨j, by omega⟩

-- The real-time clock keeps the time to which it has been set if and only if this is within the
-- first 2^31 microseconds since the epoch, however often other calls fail.
theorem gettime_exact_iff (h : tp.Normal) (hs : s.clockSettime CLOCK_REALTIME tp = some (.ok s₁))
    (hr : Run (Guarded Unset ClockStep) s₁ es s')
    (hfit : tp.micros + (s'.clock - s.clock) < 2 ^ 31 * 1000000) :
    s'.clockGettime CLOCK_REALTIME = some (.ok (.after (tp.micros + (s'.clock - s.clock)))) ↔
      tp.micros < 2 ^ 31 := by
  rw [Clocks.clockSettime_realtime] at hs
  obtain rfl := Except.ok.inj (Option.some.inj hs)
  have ⟨hle, ho⟩ := Clocks.unset_of_run hr
  have ⟨hl, hu, k, hk⟩ := toLong_micros h
  have h₀ : 0 ≤ tp.micros := by
    have := h.sec
    have := h.nsec
    simp only [Timespec.micros]
    omega
  have hle : s.clock ≤ s'.clock := hle
  rw [Clocks.clockGettime_realtime, Clocks.rtClockGettime_eq hle ho, Option.some.injEq, Except.ok.injEq,
    ← Int.ofNat_sub hle]
  rw [← Int.ofNat_sub hle] at hfit
  clear hs ho hr
  generalize toLong (toLong (tp.tv_sec * 1000000) + tp.tv_nsec.tdiv 1000) = v at *
  generalize s'.clock - s.clock = d at *
  have hc : 0 ≤ (v + d) % 2 ^ 64 := Int.emod_nonneg _ (by decide)
  constructor
  case mp =>
    intro heq
    have ⟨j, hj⟩ := ofClock_inj heq
    rw [Int.toNat_of_nonneg hc] at hj
    -- Both values could only be the same again after all 64 bits.
    have hj₀ : 0 ≤ j ∧ j ≤ 4294 := by omega
    have hk₀ : 0 ≤ k ∧ k ≤ 500000 := by omega
    have hv₀ : (v + d) / 2 ^ 64 = 0 := by omega
    omega
  case mpr =>
    intro hlt
    have hv : (v + d) % 2 ^ 64 = tp.micros + d := by omega
    rw [hv, ofClock_eq (by omega), Int.toNat_of_nonneg (by omega)]

def soon : Timespec where
  tv_sec  := 1000
  tv_nsec := 500000000

-- The clock is set after five seconds, and read a quarter of a second later. It is not affected when
-- somebody tries to set the other clock.
theorem gettime_exact_soon : ∃ s', Run (Guarded Unset ClockStep)
      (Clocks.rtClockSettime { clock := 5000000, rtClockOffset := 0 } soon)
      [.pass 250000, .settime CLOCK_MONOTONIC soon] s' ∧
    s'.clockGettime CLOCK_REALTIME = some (.ok { tv_sec := 1000, tv_nsec := 750000000 }) := by
  have hn : soon.Normal := ⟨by decide, by decide⟩
  have hm : CLOCK_MONOTONIC ≠ CLOCK_REALTIME := by decide
  have hr : Run (Guarded Unset ClockStep)
      (Clocks.rtClockSettime { clock := 5000000, rtClockOffset := 0 } soon)
      [.pass 250000, .settime CLOCK_MONOTONIC soon] _ :=
    .cons ⟨nofun, ⟨rfl⟩⟩ <| .cons ⟨fun _ h => hm (ClockEvent.settime.inj h).left, ⟨rfl⟩⟩ .refl
  exact ⟨_, hr, (gettime_exact_iff hn rfl hr (by decide)).mpr (by decide)⟩

end LibL4re
