import Kpr.EndToEnd.Pong
import Kpr.Keyboard.Theorems.Tracking
import Kpr.PongClient.Theorems.OnScreen

open Keyboard PongClient

namespace EndToEnd.Pong

variable {s s' : Pong} {e : PongEvent} {es : List PongEvent} {i : Player} {k : Key} {it : Nat}
  {codes : List Nat}

theorem reply_eq {l : List Nat} : received (dispatch Protocol.Keycode l).snd = l :=
  List.take_length

theorem pushed_eq {l : List Nat} : l.foldl (fun codes code => code :: codes) [] = l.reverse := by
  rw [List.foldl_flip_cons_eq_append', List.append_nil]

-- The steps which can be taken.

theorem step_poll (h : s.step .poll = some s') : s.codes = [] ∧ s' = { s with
    codes   := s.keyboard.currentlyPressed.reverse
    replies := s.keyboard.currentlyPressed :: s.replies
    held k  := s.held k + if k.lastCode s.keyboard.codes = some k.makeCode then 1 else 0 } := by
  rw [step] at h
  split at h
  case h_2    => contradiction
  case h_1 hc =>
    simp only [pushed_eq, reply_eq] at h
    exact ⟨hc, (Option.some.inj h).symm⟩

theorem step_key (h : s.step .key = some s') : ∃ it codes, s.codes = it :: codes ∧
    s' = { s with codes, client := s.client.step (.key it), used := it :: s.used } := by
  rw [step] at h
  split at h
  case h_1             => contradiction
  case h_2 it codes hc => exact ⟨it, codes, hc, (Option.some.inj h).symm⟩

-- The codes of the replies are used one after the other, except for those which are still to come.
theorem used_of_run (hr : Run PongStep start es s) :
    s.used.reverse ++ s.codes = (s.replies.reverse.map List.reverse).flatten := by
  apply hr.invariant (P := fun s =>
    s.used.reverse ++ s.codes = (s.replies.reverse.map List.reverse).flatten) rfl
  intro s e s' h ⟨hs⟩
  cases e
  case scan buf => exact Option.some.inj hs ▸ h
  case run i    => exact Option.some.inj hs ▸ h
  case poll     =>
    obtain ⟨hc, rfl⟩ := step_poll hs
    rw [hc, List.append_nil] at h
    simp [h]
  case key =>
    obtain ⟨it, codes, hc, rfl⟩ := step_key hs
    rw [hc] at h
    simpa using h

-- A code which is used moves the paddle of its key.
theorem event_key (it : Nat) (i : Player) : (Activity.key it).event i =
    if it = i.upKey.code then some .up else if it = i.downKey.code then some .down else none := by
  match it with
  | 0 | 1 | 2 | 3 => cases i <;> rfl
  | n + 4         => cases i <;> simp [Activity.event, target, Player.upKey, Player.downKey, Key.code]

theorem upKey_ne_downKey : i.upKey.code ≠ i.downKey.code := by
  cases i <;> decide

theorem target_of_event {e : PongClient.Event} (h : (Activity.key it).event i = some e) :
    target it = some (i, e) := by
  obtain ⟨⟨j, e'⟩, ht, h⟩ := Option.bind_eq_some_iff.mp h
  by_cases hj : j = i
  case pos => rw [ht, Option.some.inj ((if_pos hj).symm.trans h), hj]
  case neg => exact absurd ((if_neg hj).symm.trans h) nofun

-- How often a key has been used or is still going to be used.
structure Counted (s : Pong) : Prop where
  held   : s.keyboard.Held
  nodup  : s.keyboard.currentlyPressed.Nodup
  counts : ∀ k : Key, s.used.count k.code + s.codes.count k.code = s.held k

theorem start_counted : start.Counted where
  held     := Session.boot_held
  nodup    := .nil
  counts _ := rfl

namespace Counted

variable (h : s.Counted)
include h

-- The reply contains a key once if it is held, and not at all otherwise.
theorem count_reverse : s.keyboard.currentlyPressed.reverse.count k.code =
    if k.lastCode s.keyboard.codes = some k.makeCode then 1 else 0 := by
  rw [List.count_reverse, List.Nodup.count h.nodup, if_congr (h.held.held k) rfl rfl]

theorem step (hg : s.Steady e) (hs : s.step e = some s') : s'.Counted := by
  cases e
  case run i    => exact Option.some.inj hs ▸ ⟨h.held, h.nodup, h.counts⟩
  case scan buf =>
    have hh := h.held.step (.handled : Keyboard.Step s.keyboard buf _)
    have hn := (Session.nodup_step_iff h.nodup).mpr hg
    exact Option.some.inj hs ▸ ⟨hh, hn, h.counts⟩
  case poll     =>
    obtain ⟨hc, rfl⟩ := step_poll hs
    refine ⟨h.held, h.nodup, fun k => ?_⟩
    have hk := h.counts k
    rw [hc, List.count_nil, Nat.add_zero] at hk
    rw [h.count_reverse, hk]
  case key      =>
    obtain ⟨it, codes, hc, rfl⟩ := step_key hs
    refine ⟨h.held, h.nodup, fun k => ?_⟩
    have hk := h.counts k
    rw [hc, List.count_cons] at hk
    dsimp only
    rw [List.count_cons]
    omega

end Counted

-- On the screen, nothing is clamped.
theorem run_on_screen {p : Paddle} (h : 0 ≤ p.pos) (h' : p.pos ≤ 1023) :
    (p.step .run).pos = p.pos ∧ (p.step .run).speed = p.speed := by
  rw [Paddle.step, Paddle.run]
  split
  case h_1 => exact ⟨rfl, rfl⟩
  case h_2 => exact ⟨if_neg (Int.not_lt.mpr h), rfl⟩
  case h_3 => exact ⟨if_neg (Int.not_lt.mpr h'), rfl⟩

-- The position of a paddle on the screen follows from the keys which have been used.
structure Placed (s : Pong) (i : Player) : Prop where
  speed  : (s.client.paddles i).speed = 30
  nonneg : 0 ≤ (s.client.paddles i).pos
  le     : (s.client.paddles i).pos ≤ 1023
  pos    : (s.client.paddles i).pos =
    180 + 30 * (s.used.count i.downKey.code : Int) - 30 * (s.used.count i.upKey.code : Int)

theorem start_placed : start.Placed i where
  speed  := rfl
  nonneg := Int.le_of_lt (by decide : (0 : Int) < 180)
  le     := Int.le_of_lt (by decide : (180 : Int) < 1023)
  pos    := rfl

namespace Placed

variable (h : s.Placed i)
include h

theorem run {j : Player} : Placed { s with client := s.client.step (.run j) } i := by
  have hp := Client.step_paddles (c := s.client) (a := .run j) (i := i)
  have ⟨hpos, hspeed⟩ : ((s.client.step (.run j)).paddles i).pos = (s.client.paddles i).pos ∧
      ((s.client.step (.run j)).paddles i).speed = (s.client.paddles i).speed := by
    rw [hp]
    by_cases hj : j = i
    case pos => simp [Activity.event, hj, run_on_screen h.nonneg h.le]
    case neg => simp [Activity.event, hj]
  constructor
  case speed  => exact hspeed.trans h.speed
  case nonneg => exact hpos ▸ h.nonneg
  case le     => exact hpos ▸ h.le
  case pos    => exact hpos.trans h.pos

theorem up_pos : ((s.client.paddles i).step .up).pos = (s.client.paddles i).pos - 30 := by
  have ⟨hspeed, hnonneg, hle, _⟩ := h
  rw [Paddle.step, Paddle.up, hspeed]
  exact toInt_eq (by omega) (by omega)

theorem down_pos : ((s.client.paddles i).step .down).pos = (s.client.paddles i).pos + 30 := by
  have ⟨hspeed, hnonneg, hle, _⟩ := h
  rw [Paddle.step, Paddle.down, hspeed]
  exact toInt_eq (by omega) (by omega)

theorem key {l : List Nat} (hg : s.Steady .key) (hc : s.codes = it :: l) :
    Placed { s with codes := l, client := s.client.step (.key it), used := it :: s.used } i := by
  have hp := Client.step_paddles (c := s.client) (a := .key it) (i := i)
  have ⟨hup, hdown⟩ := hg it (hc ▸ rfl) i
  have ⟨hspeed, hnonneg, hle, hpos⟩ := h
  have he := event_key it i
  by_cases hu : it = i.upKey.code
  case pos =>
    rw [if_pos hu] at he
    have h30 := hup (target_of_event he)
    rw [he] at hp
    have hcu : (it :: s.used).count i.upKey.code = s.used.count i.upKey.code + 1 :=
      hu ▸ List.count_cons_self
    have hcd : (it :: s.used).count i.downKey.code = s.used.count i.downKey.code :=
      List.count_cons_of_ne fun hd => upKey_ne_downKey (hu.symm.trans hd)
    constructor <;> simp only [hp, Option.elim_some, h.up_pos, hcu, hcd]
    case speed  => exact hspeed
    case nonneg => omega
    case le     => omega
    case pos    => omega
  case neg =>
    rw [if_neg hu] at he
    have hcu : (it :: s.used).count i.upKey.code = s.used.count i.upKey.code :=
      List.count_cons_of_ne hu
    by_cases hd : it = i.downKey.code
    case pos =>
      rw [if_pos hd] at he
      have h30 := hdown (target_of_event he)
      rw [he] at hp
      have hcd : (it :: s.used).count i.downKey.code = s.used.count i.downKey.code + 1 :=
        hd ▸ List.count_cons_self
      constructor <;> simp only [hp, Option.elim_some, h.down_pos, hcu, hcd]
      case speed  => exact hspeed
      case nonneg => omega
      case le     => omega
      case pos    => omega
    case neg =>
      rw [if_neg hd] at he
      rw [he] at hp
      have hcd : (it :: s.used).count i.downKey.code = s.used.count i.downKey.code :=
        List.count_cons_of_ne hd
      constructor <;> simp only [hp, Option.elim_none, hcu, hcd]
      case speed  => exact hspeed
      case nonneg => exact hnonneg
      case le     => exact hle
      case pos    => exact hpos

theorem step (hg : s.Steady e) (hs : s.step e = some s') : s'.Placed i := by
  cases e
  case scan buf => exact Option.some.inj hs ▸ ⟨h.speed, h.nonneg, h.le, h.pos⟩
  case run j    => exact Option.some.inj hs ▸ h.run
  case poll     =>
    obtain ⟨_, rfl⟩ := step_poll hs
    exact ⟨h.speed, h.nonneg, h.le, h.pos⟩
  case key      =>
    obtain ⟨it, codes, hc, rfl⟩ := step_key hs
    exact h.key hg hc

end Placed

-- Between two polls, the codes of all replies have been used, reply by reply and each one from its
-- end, each key as often as it has been held at a poll. The positions of the paddles are what
-- follows from this.
theorem pos_eq_held (hr : Run (Guarded Steady PongStep) start es s) (hc : s.codes = []) :
    s.used.reverse = (s.replies.reverse.map List.reverse).flatten ∧
    (∀ k : Key, s.used.count k.code = s.held k) ∧
    (s.client.paddles i).pos = 180 + 30 * (s.held i.downKey : Int) - 30 * (s.held i.upKey : Int) := by
  have hu := used_of_run (hr.mono Guarded.step)
  rw [hc, List.append_nil] at hu
  have ⟨h, hp⟩ : s.Counted ∧ s.Placed i := by
    apply hr.invariant (P := fun s => s.Counted ∧ s.Placed i) ⟨start_counted, start_placed⟩
    exact fun ⟨h, hp⟩ ⟨hg, ⟨hs⟩⟩ => ⟨h.step hg hs, hp.step hg hs⟩
  have hk (k : Key) : s.used.count k.code = s.held k := by
    rw [← h.counts k, hc, List.count_nil, Nat.add_zero]
  exact ⟨hu, hk, by rw [hp.pos, hk, hk]⟩

theorem steady_up (hc : s.codes = [Key.UP_1.code]) (hp : 30 ≤ (s.client.paddles .p0).pos) :
    s.Steady .key := by
  intro it hit i
  rw [hc] at hit
  obtain rfl := Option.some.inj hit
  cases i
  case p0 => exact ⟨fun _ => hp, nofun⟩
  case p1 => exact ⟨nofun, nofun⟩

-- A key is held while there are two polls.
theorem pos_eq_held_twice : ∃ s, Run (Guarded Steady PongStep) start
    [.scan 31, .poll, .key, .run .p0, .poll, .key] s ∧ (s.client.paddles .p0).pos = 120 := by
  have hf : start.keyboard.PressesFront 31 := nofun
  have hr : Run (Guarded Steady PongStep) start [.scan 31, .poll, .key, .run .p0, .poll, .key] _ :=
    .cons ⟨hf, ⟨rfl⟩⟩ <| .cons ⟨trivial, ⟨rfl⟩⟩ <| .cons ⟨steady_up rfl (by decide), ⟨rfl⟩⟩ <|
    .cons ⟨trivial, ⟨rfl⟩⟩ <| .cons ⟨trivial, ⟨rfl⟩⟩ <| .cons ⟨steady_up rfl (by decide), ⟨rfl⟩⟩ .refl
  exact ⟨_, hr, (pos_eq_held hr rfl).right.right⟩

end EndToEnd.Pong
