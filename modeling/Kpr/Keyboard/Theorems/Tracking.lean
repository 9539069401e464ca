import Kpr.Keyboard.Session
import Kpr.Lib.Destutter
import Mathlib.Data.List.Perm.Subperm

namespace Keyboard

variable {s s' : Session} {k j : Key} {l codes cs : List Nat} {buf it label : Nat}

namespace Key

theorem code_inj : k.code = j.code ↔ k = j := by
  cases k <;> cases j <;> simp [code]

theorem makeCode_inj : k.makeCode = j.makeCode ↔ k = j := by
  cases k <;> cases j <;> simp [makeCode]

theorem makeCode_ne_breakCode : k.makeCode ≠ j.breakCode := by
  cases k <;> cases j <;> simp [makeCode, breakCode]

theorem breakCode_inj : k.breakCode = j.breakCode ↔ k = j := by
  rw [breakCode, breakCode, Nat.add_right_cancel_iff, makeCode_inj]

theorem code_lt : k.code < 5 := by
  cases k <;> decide

theorem lastCode_make : k.lastCode (j.makeCode :: codes) =
    if k = j then some k.makeCode else k.lastCode codes := by
  by_cases h : k = j
  case pos => simp [lastCode, h]
  case neg =>
    have hm : j.makeCode ≠ k.makeCode := fun e => h (makeCode_inj.mp e).symm
    simp [lastCode, h, hm, makeCode_ne_breakCode]

theorem lastCode_break : k.lastCode (j.breakCode :: codes) =
    if k = j then some k.breakCode else k.lastCode codes := by
  by_cases h : k = j
  case pos => simp [lastCode, h]
  case neg =>
    have hb : j.breakCode ≠ k.breakCode := fun e => h (breakCode_inj.mp e).symm
    simp [lastCode, h, hb, makeCode_ne_breakCode.symm]

theorem lastCode_other (hm : buf ≠ k.makeCode) (hb : buf ≠ k.breakCode) :
    k.lastCode (buf :: codes) = k.lastCode codes := by
  simp [lastCode, hm, hb]

end Key

theorem press_make : press k.makeCode l = k.code :: l := by
  cases k <;> rfl

theorem press_other (h : ∀ k : Key, buf ≠ k.makeCode) : press buf l = l := by
  have h₁ : buf ≠ 15 := h .TAB
  have h₂ : buf ≠ 30 := h .DOWN_1
  have h₃ : buf ≠ 31 := h .UP_1
  have h₄ : buf ≠ 38 := h .DOWN_2
  have h₅ : buf ≠ 39 := h .UP_2
  unfold press
  split <;> first | contradiction | rfl

theorem released_iff : released buf it = true ↔ ∃ k : Key, buf = k.breakCode ∧ it = k.code := by
  constructor
  case mp =>
    intro h
    simp only [released, Bool.if_false_right, Bool.if_true_left, Bool.or_eq_true, decide_eq_true_eq,
      Bool.and_true] at h
    rcases h with h | h | h | h | h
    · exact ⟨.TAB, h⟩
    · exact ⟨.DOWN_1, h⟩
    · exact ⟨.UP_1, h⟩
    · exact ⟨.DOWN_2, h⟩
    · exact ⟨.UP_2, h⟩
  case mpr =>
    rintro ⟨k, rfl, rfl⟩
    cases k <;> rfl

theorem eraseReleased_eq : eraseReleased buf l = l.filter (!released buf ·) := by
  induction l
  case nil           => rfl
  case cons it l hi =>
    rw [eraseReleased, List.filter_cons, hi]
    cases released buf it <;> rfl

-- Only break codes release keys.
theorem eraseReleased_other (h : ∀ k : Key, buf ≠ k.breakCode) : eraseReleased buf l = l := by
  rw [eraseReleased_eq, List.filter_eq_self]
  intro it _
  rw [Bool.not_eq_true', Bool.eq_false_iff]
  intro hr
  have ⟨k, hk, _⟩ := released_iff.mp hr
  exact h k hk

theorem eraseReleased_break : eraseReleased k.breakCode l = l.filter (· ≠ k.code) := by
  rw [eraseReleased_eq]
  apply List.filter_congr
  intro it _
  rw [Bool.eq_iff_iff, Bool.not_eq_true', Bool.eq_false_iff, ne_eq, released_iff, decide_eq_true_iff]
  constructor
  case mp  => exact fun h hit => h ⟨k, rfl, hit⟩
  case mpr => exact fun h ⟨j, hj, hit⟩ => h (Key.breakCode_inj.mp hj ▸ hit)

theorem handle_make : handle k.makeCode l = (k.code :: l).destutter (· ≠ ·) := by
  rw [handle, press_make, eraseReleased_other fun _ => Key.makeCode_ne_breakCode, unique]

theorem handle_break : handle k.breakCode l = (l.filter (· ≠ k.code)).destutter (· ≠ ·) := by
  rw [handle, press_other fun _ => Key.makeCode_ne_breakCode.symm, eraseReleased_break, unique]

theorem handle_other (hm : ∀ k : Key, buf ≠ k.makeCode) (hb : ∀ k : Key, buf ≠ k.breakCode) :
    handle buf l = l.destutter (· ≠ ·) := by
  rw [handle, press_other hm, eraseReleased_other hb, unique]

-- There are three kinds of scan codes.
theorem code_cases {P : Nat → Prop} (buf : Nat) (make : ∀ k : Key, P k.makeCode)
    (break' : ∀ k : Key, P k.breakCode)
    (other : (∀ k : Key, buf ≠ k.makeCode) → (∀ k : Key, buf ≠ k.breakCode) → P buf) : P buf := by
  by_cases hm : ∃ k : Key, buf = k.makeCode
  case pos =>
    have ⟨k, hk⟩ := hm
    exact hk ▸ make k
  case neg =>
    by_cases hb : ∃ k : Key, buf = k.breakCode
    case pos =>
      have ⟨k, hk⟩ := hb
      exact hk ▸ break' k
    case neg => exact other (not_exists.mp hm) (not_exists.mp hb)

theorem mem_handle_make : it ∈ handle k.makeCode l ↔ it = k.code ∨ it ∈ l := by
  rw [handle_make, List.mem_destutter_ne, List.mem_cons]

theorem mem_handle_break : it ∈ handle k.breakCode l ↔ it ∈ l ∧ it ≠ k.code := by
  rw [handle_break, List.mem_destutter_ne, List.mem_filter, decide_eq_true_iff]

theorem mem_handle_other (hm : ∀ k : Key, buf ≠ k.makeCode) (hb : ∀ k : Key, buf ≠ k.breakCode) :
    it ∈ handle buf l ↔ it ∈ l := by
  rw [handle_other hm hb, List.mem_destutter_ne]

-- A key is in the list from its make code to its break code.
theorem code_mem_handle :
    k.code ∈ handle buf l ↔ buf = k.makeCode ∨ k.code ∈ l ∧ buf ≠ k.breakCode := by
  induction buf using code_cases
  case make j =>
    rw [mem_handle_make, Key.code_inj, Key.makeCode_inj, eq_comm]
    simp [Key.makeCode_ne_breakCode]
  case break' j =>
    rw [mem_handle_break, ne_eq, ne_eq, Key.code_inj, Key.breakCode_inj, eq_comm]
    simp [Key.makeCode_ne_breakCode.symm]
  case other hm hb =>
    rw [mem_handle_other hm hb]
    simp [hm k, hb k]

namespace Session

-- What holds of the list whatever is pressed.
structure Held (s : Session) : Prop where
  keys : ∀ it ∈ s.currentlyPressed, ∃ k : Key, it = k.code
  held : ∀ k : Key, k.code ∈ s.currentlyPressed ↔ k.lastCode s.codes = some k.makeCode

theorem boot_held : boot.Held where
  keys := nofun
  held := by simp [boot, Key.lastCode]

theorem Held.step (h : s.Held) (hs : Step s buf s') : s'.Held := by
  cases hs
  have ⟨hkeys, hheld⟩ := h
  induction buf using code_cases
  case make j =>
    constructor
    case keys =>
      intro it hit
      cases mem_handle_make.mp hit
      case inl hit => exact ⟨j, hit⟩
      case inr hit => exact hkeys it hit
    case held =>
      intro k
      rw [mem_handle_make, Key.code_inj, Key.lastCode_make, hheld]
      by_cases hkj : k = j <;> simp [hkj]
  case break' j =>
    constructor
    case keys => exact fun it hit => hkeys it (mem_handle_break.mp hit).left
    case held =>
      intro k
      rw [mem_handle_break, ne_eq, Key.code_inj, Key.lastCode_break, hheld]
      by_cases hkj : k = j <;> simp [hkj, Key.makeCode_ne_breakCode.symm]
  case other hm hb =>
    constructor
    case keys => exact fun it hit => hkeys it ((mem_handle_other hm hb).mp hit)
    case held =>
      intro k
      rw [mem_handle_other hm hb, Key.lastCode_other (hm k) (hb k), hheld]

-- The membership of keys is right in all runs.
theorem held_of_run (h : Run Step boot cs s) : s.Held :=
  h.invariant boot_held Held.step

theorem Tracks.nodup (h : s.Tracks) (hk : ∀ it ∈ s.currentlyPressed, ∃ k : Key, it = k.code) :
    s.currentlyPressed.Nodup := by
  apply List.nodup_iff_count_le_one.mpr
  intro it
  by_cases hit : it ∈ s.currentlyPressed
  case neg => exact (List.count_eq_zero.mpr hit).trans_le (Nat.zero_le 1)
  case pos =>
    have ⟨k, hk⟩ := hk it hit
    exact hk ▸ h.once k

theorem Held.tracks (h : s.Held) (hn : s.currentlyPressed.Nodup) : s.Tracks := by
  have hsub : s.currentlyPressed ⊆ List.range 5 := by
    intro it hit
    have ⟨k, hk⟩ := h.keys it hit
    exact List.mem_range.mpr (hk ▸ Key.code_lt)
  have hlen : s.currentlyPressed.length ≤ 5 := (hn.subperm hsub).length_le
  constructor
  case held    => exact h.held
  case once    => exact fun k => List.nodup_iff_count_le_one.mp hn k.code
  case bounded => exact hlen
  case reply   =>
    intro label
    rw [dispatch]
    split
    case isTrue  => exact Nat.zero_le 6
    case isFalse => exact Nat.succ_le_succ hlen

-- A key is only listed twice if it is pressed while another key is in front of it.
theorem nodup_step_iff (hn : s.currentlyPressed.Nodup) :
    (handle buf s.currentlyPressed).Nodup ↔ s.PressesFront buf := by
  induction buf using code_cases
  case make j =>
    rw [handle_make, List.nodup_destutter_ne_cons hn, PressesFront]
    constructor
    case mp  => exact fun h k hk => Key.makeCode_inj.mp hk ▸ h
    case mpr => exact fun h => h j rfl
  case break' j =>
    rw [handle_break, (hn.filter _).destutter_ne]
    exact iff_of_true (hn.filter _) fun k hk => absurd hk.symm Key.makeCode_ne_breakCode
  case other hm hb =>
    rw [handle_other hm hb, hn.destutter_ne]
    exact iff_of_true hn fun k hk => absurd hk (hm k)

-- The list is as it should be in exactly those runs in which each key that is pressed is either not
-- held or at the front of the list.
theorem tracks_iff_pressesFront :
    Run (Guarded PressesFront Step) boot cs s ↔ Run (Reaching Tracks Step) boot cs s := by
  apply Run.guarded_iff (I := fun s => s.Held ∧ s.currentlyPressed.Nodup)
  case h₀ => exact ⟨boot_held, .nil⟩
  case h =>
    intro s buf s' ⟨hh, hn⟩ hs
    have hh' := hh.step hs
    cases hs
    constructor
    case mp  => exact fun ht => (nodup_step_iff hn).mp (ht.nodup hh'.keys)
    case mpr => exact fun hp => hh'.tracks ((nodup_step_iff hn).mpr hp)
  case hi => exact fun ⟨hh, _⟩ hs ht => ⟨hh.step hs, ht.nodup (hh.step hs).keys⟩

-- Tab is pressed, and again after another key has been pressed.
theorem listed_twice : ¬∀ cs s, Run Step boot cs s → s.Tracks := by
  intro h
  have ht := h _ _ (((Run.refl.snoc .handled).snoc .handled).snoc .handled : Run Step boot [15, 30, 15] _)
  exact absurd (ht.once .TAB) (by decide)

end Session

end Keyboard
