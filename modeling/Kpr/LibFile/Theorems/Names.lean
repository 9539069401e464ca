import Kpr.LibFile.Theorems.Blocks
import Mathlib.Data.List.TakeWhile

namespace LibFile

variable {φ : Type} {ops : Ops φ} {s s' : Process φ} {c : Call} {cs : List Call} {f : φ}
  {path chars : List Char} {last : Char} {granted buf : Bool} {size : Nat} {bs : List Nat}

-- The string which is written by `chdir` leads where the path leads from the working directory.
theorem Ops.Resolves.joined {d : φ} (h : ops.Resolves) (hl : chars.getLast? = some last)
    (hp : path.head? ≠ some '/') (hc : ops.openat ops.root (chars.dropWhile (· = '/')) = .ok d)
    (hf : ops.openat d path = .ok f) :
    ops.openat ops.root ((Process.joined chars last path).dropWhile (· = '/')) = .ok f := by
  have hpath : path.dropWhile (· = '/') = path := by
    cases path
    case nil         => rfl
    case cons c path => exact List.dropWhile_cons_of_neg (by simpa using hp)
  have hlast (hn : chars.dropWhile (· = '/') ≠ []) :
      (chars.dropWhile (· = '/')).getLast? = some last := by
    rwa [← List.takeWhile_append_dropWhile (p := (decide <| · = '/')) (l := chars),
      List.getLast?_append_of_ne_nil _ hn] at hl
  generalize hrest : chars.dropWhile (· = '/') = rest at hc hlast
  rw [Process.joined]
  split
  case isTrue hne =>
    have hn : rest ≠ [] := by
      rintro rfl
      have hs := List.dropWhile_eq_nil_iff.mp hrest last (List.mem_of_getLast? hl)
      exact hne (by simpa using hs)
    rw [List.append_assoc, List.dropWhile_append, hrest, if_neg (by simpa using hn)]
    exact h.step hc hf hp
  case isFalse he =>
    have he : last = '/' := not_not.mp he
    rw [List.dropWhile_append, hrest]
    split
    case isTrue hn =>
      have hn : rest = [] := by simpa using hn
      rw [hn, h.here] at hc
      cases hc
      rwa [hpath]
    case isFalse hn =>
      have hlast := hlast (by simpa using hn)
      obtain ⟨p, rfl⟩ := List.getLast?_eq_some_iff.mp hlast
      rw [he] at hc ⊢
      rw [List.append_assoc]
      exact h.trail hc hf hp

namespace Process

theorem internalResolve_congr (h : s'.cwd = s.cwd) :
    s'.internalResolve ops AT_FDCWD path = s.internalResolve ops AT_FDCWD path := by
  simp only [internalResolve, internalGetDir, h]

theorem Named.congr (h : s.Named ops) (hd : s'.dir = s.dir) (hc : s'.cwd = s.cwd) : s'.Named ops := by
  obtain ⟨chars, hchars, hr⟩ := h
  exact ⟨chars, hd ▸ hchars, by rw [internalResolve_congr hc, hr, hc]⟩

theorem boot_named (h : ops.Resolves) : (boot ops).Named ops :=
  ⟨['/'], rfl, h.here⟩

-- The string which is in use after a step leads to the new working directory, except for the cases
-- which are excluded.
theorem named_step_iff (hr : ops.Resolves) (h : s.Consistent) (hn : s.Named ops)
    (hs : CallStep ops s c s') : s'.Named ops ↔ s.Keeps ops c := by
  obtain ⟨hs⟩ := hs
  obtain ⟨chars, hchars, hres⟩ := hn
  have hn : s.Named ops := ⟨chars, hchars, hres⟩
  have ha := h.absolute chars hchars
  cases c
  case chdir path granted =>
    obtain ⟨e, he, rfl⟩ | ⟨f, s₁, hf, rfl, he⟩ := step_chdir hs
    case inl =>
      exact iff_of_true (hn.congr rfl rfl) fun _ f hf => absurd (he.symm.trans hf) (by simp)
    case inr =>
      split at he
      case isTrue hp =>
        obtain ⟨s₂, he₂, _, hd⟩ := replaceDir_spec granted h hp
        cases Option.some.inj (he₂.symm.trans he)
        cases granted
        case true =>
          refine iff_of_true ⟨path, by simp [hd, WorkingDir.chars], ?_⟩ fun _ _ _ => rfl
          rw [internalResolve_absolute hp] at hf ⊢
          exact hf
        case false =>
          refine iff_of_false ?_ fun hk => absurd (hk hp f hf) Bool.false_ne_true
          rintro ⟨chars, hm, _⟩
          simp [hd, WorkingDir.chars] at hm
      case isFalse hp =>
        obtain ⟨chars', last, hc, hl, _, hd⟩ := extendDir_some h he
        cases Option.some.inj (hc.symm.trans hchars)
        refine iff_of_true ⟨joined chars last path, by simp [hd, WorkingDir.chars], ?_⟩
          fun hp' => absurd hp' hp
        rw [internalResolve_absolute ha] at hres
        rw [internalResolve_relative hp] at hf
        rw [internalResolve_absolute (head_joined last path ha)]
        exact hr.joined hl hp hres hf
  case fchdir fd =>
    obtain ⟨hf, rfl⟩ | ⟨f, hf, rfl⟩ := step_fchdir hs
    case inl => exact iff_of_true (hn.congr rfl rfl) fun f hm => absurd (hf.symm.trans hm) (by simp)
    case inr =>
      constructor
      case mp =>
        rintro ⟨chars', hc, hres'⟩ f' hf'
        cases Option.some.inj (hf.symm.trans hf')
        cases Option.some.inj ((Option.mem_def.mp hchars).symm.trans hc)
        rw [internalResolve_absolute ha] at hres hres'
        exact Except.ok.inj (hres'.symm.trans hres)
      case mpr =>
        intro hk
        exact hn.congr rfl (hk f hf)
  case getcwd buf size granted =>
    obtain ⟨hd, hc, _⟩ := step_getcwd hs
    exact iff_of_true (hn.congr hd hc) trivial

-- The string leads to the working directory after each call of a run if and only if no `fchdir` goes
-- anywhere else, and there is memory whenever the string is replaced.
theorem named_iff (h : ops.Resolves) : Run (Guarded (Keeps ops) (CallStep ops)) (boot ops) cs s ↔
    Run (Reaching (Named ops) (CallStep ops)) (boot ops) cs s :=
  Run.guarded_iff (I := fun s => s.Consistent ∧ s.Named ops) ⟨boot_consistent, boot_named h⟩
    (fun ⟨hc, hn⟩ hs => named_step_iff h hc hn hs) fun ⟨hc, _⟩ hs hn => ⟨hc.step hs, hn⟩

-- The string with which a program has remembered its working directory leads back to it if and only
-- if it has led there in the first place, whatever the program has done in between.
theorem chdir_getcwd_iff {s₁ s₂ : Process φ} {cs' : List Call} {granted' : Bool}
    (hr : Run (CallStep ops) (boot ops) cs s)
    (hg : s.getcwd buf size granted = some (some chars, s₁)) (hr' : Run (CallStep ops) s₁ cs' s₂) :
    ∃ r s₃, s₂.chdir ops chars granted' = some (r, s₃) ∧
      ((r = 0 ∧ s₃.cwd = s.cwd) ↔ s.Named ops) ∧
      (r = 0 → granted' = true → s₃.dir.chars = some chars) := by
  have hc := consistent_of_run hr
  have hchars := getcwd_chars hg
  have hp := hc.absolute chars hchars
  have hs : CallStep ops s (.getcwd buf size granted) s₁ := ⟨congrArg (Option.map Prod.snd) hg⟩
  have hc₂ : s₂.Consistent := hr'.invariant (hc.step hs) fun hc hs => hc.step hs
  have hn : s.Named ops ↔ s₂.internalResolve ops AT_FDCWD chars = .ok s.cwd := by
    rw [Named, hchars, internalResolve_absolute hp]
    constructor
    case mpr => exact fun h => ⟨chars, rfl, by rw [internalResolve_absolute hp, h]⟩
    case mp  =>
      rintro ⟨chars', hm, h⟩
      cases Option.some.inj hm
      rwa [internalResolve_absolute hp] at h
  rw [hn, chdir]
  cases s₂.internalResolve ops AT_FDCWD chars
  case error e => exact ⟨-1, _, rfl, by simp, by simp⟩
  case ok f    =>
    obtain ⟨s₃, he, _, hd⟩ := replaceDir_spec granted' hc₂ hp
    simp only [if_pos hp, he]
    refine ⟨0, _, rfl, by simp, fun _ hgr => ?_⟩
    simp [hd, hgr, WorkingDir.chars]

theorem tree_append {d e f : List (List Char)} {p q : List Char} (hd : tree.openat d p = .ok e)
    (he : tree.openat e q = .ok f) : tree.openat d (p ++ '/' :: q) = .ok f := by
  cases hd
  cases he
  refine congrArg Except.ok ?_
  rw [List.wordsP_append_cons (p := (decide <| · = '/')) rfl, List.append_assoc]

theorem tree_resolves : tree.Resolves where
  here         := rfl
  step hd he _ := tree_append hd he
  trail {d e f p q} hd he _ := by
    have hp : tree.openat d (p ++ ['/']) = tree.openat d p := by
      refine congrArg (Except.ok <| d ++ ·) ?_
      rw [List.wordsP_append_cons (p := (decide <| · = '/')) rfl, List.wordsP_nil, List.append_nil]
    exact tree_append (hp ▸ hd) he

-- Slashes are added where they are missing.
theorem named_usr_lib : ∃ s, Run (Reaching (Named tree) (CallStep tree)) (boot tree)
      [.chdir ['/', 'u', 's', 'r'] true, .chdir ['l', 'i', 'b', '/'] true, .chdir ['c'] true] s ∧
    s.dir.chars = some ['/', 'u', 's', 'r', '/', 'l', 'i', 'b', '/', 'c'] := by
  have hr : Run (Guarded (Keeps tree) (CallStep tree)) (boot tree)
      [.chdir ['/', 'u', 's', 'r'] true, .chdir ['l', 'i', 'b', '/'] true, .chdir ['c'] true] _ :=
    .cons ⟨fun _ _ _ => rfl, ⟨rfl⟩⟩ <| .cons ⟨fun _ _ _ => rfl, ⟨rfl⟩⟩ <|
    .cons ⟨fun _ _ _ => rfl, ⟨rfl⟩⟩ .refl
  exact ⟨_, (named_iff tree_resolves).mp hr, rfl⟩

-- The program has been elsewhere meanwhile.
theorem chdir_getcwd_usr : ∃ s s₂ : Process (List (List Char)), s.cwd ≠ s₂.cwd ∧
    ∃ r s₃, s₂.chdir tree ['/', 'u', 's', 'r'] true = some (r, s₃) ∧
      ((r = 0 ∧ s₃.cwd = s.cwd) ↔ s.Named tree) ∧
      (r = 0 → true = true → s₃.dir.chars = some ['/', 'u', 's', 'r']) := by
  have ⟨s, hr, hc, s₁, hg, hc₁⟩ : ∃ s, Run (CallStep tree) (boot tree) [.chdir ['u', 's', 'r'] true] s ∧
      s.cwd = [['u', 's', 'r']] ∧ ∃ s₁, s.getcwd false 0 true = some (some ['/', 'u', 's', 'r'], s₁) ∧
      ∃ s₂, s₁.step tree (.chdir ['/', 'c'] true) = some s₂ ∧ s₂.cwd = [['c']] :=
    ⟨_, .cons ⟨rfl⟩ .refl, rfl, _, rfl, _, rfl, rfl⟩
  have ⟨s₂, hs, hc₂⟩ := hc₁
  refine ⟨s, s₂, ?_, chdir_getcwd_iff hr hg (.cons ⟨hs⟩ .refl)⟩
  rw [hc, hc₂]
  decide

end Process
end LibFile
