import Kpr.LibFile.WorkingDirectory
import Kpr.Lib.Words
import Mathlib.Data.List.Perm.Basic

namespace LibFile

variable {φ : Type} {ops : Ops φ} {s s' : Process φ} {c : Call} {cs : List Call} {f : φ}
  {path chars : List Char} {last : Char} {granted buf : Bool} {size : Nat} {bs : List Nat}

namespace Process

-- An absolute path leads to the same file for each working directory.
theorem internalResolve_absolute (h : path.head? = some '/') :
    s.internalResolve ops AT_FDCWD path = ops.openat ops.root (path.dropWhile (· = '/')) := by
  rw [internalResolve, internalGetDir, if_pos h]

theorem internalResolve_relative (h : path.head? ≠ some '/') :
    s.internalResolve ops AT_FDCWD path = ops.openat s.cwd path := by
  rw [internalResolve, internalGetDir, if_neg h, if_pos rfl]

-- What always holds of the string and of the heap.
structure Consistent (s : Process φ) : Prop where
  absolute : ∀ chars ∈ s.dir.chars, chars.head? = some '/'
  owned    : s.blocks.Perm (s.dir.number.toList ++ (s.returned ++ s.lost))
  below    : ∀ n ∈ s.blocks, n < s.next
  nodup    : s.blocks.Nodup

theorem boot_consistent : (boot ops).Consistent where
  absolute := by simp [boot, WorkingDir.chars]
  owned    := .nil
  below    := nofun
  nodup    := .nil

-- The string is freed if it has been allocated, and nothing else.
theorem freeCwd_eq (h : s.blocks.Perm (s.dir.number.toList ++ bs)) :
    ∃ bs', s.freeCwd = some { s with blocks := bs' } ∧ bs'.Perm bs ∧ bs'.Sublist s.blocks := by
  obtain ⟨cwd, dir, errno, blocks, next, returned, lost⟩ := s
  cases dir
  case null          => exact ⟨blocks, rfl, h, .refl _⟩
  case default       => exact ⟨blocks, rfl, h, .refl _⟩
  case block n chars =>
    have hn : n ∈ blocks := h.mem_iff.mpr List.mem_cons_self
    exact ⟨blocks.erase n, if_pos hn, ((List.perm_cons_erase hn).symm.trans h).cons_inv,
      List.erase_sublist⟩

theorem Consistent.lt_next (h : s.Consistent) {n : Nat} (hn : n ∈ s.next :: s.blocks) :
    n < s.next + 1 := by
  cases List.mem_cons.mp hn
  case inl hn => exact hn ▸ Nat.lt_succ_self _
  case inr hn => exact Nat.lt_succ_of_lt (h.below n hn)

theorem Consistent.nodup_next (h : s.Consistent) : (s.next :: s.blocks).Nodup :=
  List.nodup_cons.mpr ⟨fun hn => Nat.lt_irrefl _ (h.below _ hn), h.nodup⟩

-- The string is replaced by another one, which has been allocated before or after the old one is freed.
theorem Consistent.dir (h : s.Consistent) (hp : bs.Perm (s.next :: (s.returned ++ s.lost)))
    (hs : bs.Sublist (s.next :: s.blocks)) (hc : chars.head? = some '/') : Consistent { s with
      dir := .block s.next chars, blocks := bs, next := s.next + 1 } where
  absolute   := by simpa [WorkingDir.chars] using hc
  owned      := hp
  below n hn := h.lt_next (hs.subset hn)
  nodup      := h.nodup_next.sublist hs

theorem replaceDir_spec (granted : Bool) (h : s.Consistent) (hp : path.head? = some '/') :
    ∃ s', s.replaceDir path granted = some s' ∧ s'.Consistent ∧
      s'.dir = if granted then .block s.next path else .null := by
  have ⟨bs, hf, hb, hs⟩ := freeCwd_eq h.owned
  rw [replaceDir, hf]
  cases granted
  case true  => exact ⟨_, rfl, h.dir (hb.cons s.next) (hs.cons_cons s.next) hp, rfl⟩
  case false =>
    refine ⟨_, rfl, ⟨nofun, hb, fun n hn => h.below n (hs.subset hn), h.nodup.sublist hs⟩, rfl⟩

theorem length_joined (chars : List Char) (last : Char) (path : List Char) :
    (joined chars last path).length + 1 ≤ chars.length + path.length + 2 ∧
    chars.length + path.length + 1 ≤ (joined chars last path).length + 1 := by
  rw [joined]
  split <;> simp only [List.length_append, List.length_singleton] <;> omega

theorem head_joined (last : Char) (path : List Char) (h : chars.head? = some '/') :
    (joined chars last path).head? = some '/' := by
  rw [joined]
  cases chars
  case nil    => contradiction
  case cons c chars => split <;> simpa using h

theorem extendDir_eq (path : List Char) (h : s.Consistent) (hc : s.dir.chars = some chars)
    (hl : chars.getLast? = some last) (hlt : chars.length + path.length + 2 < 2 ^ 32) :
    ∃ s', s.extendDir path true = some s' ∧ s'.Consistent ∧
      s'.dir = .block s.next (joined chars last path) := by
  have hsize : ¬(chars.length + path.length + 2) % 2 ^ 32 < (joined chars last path).length + 1 := by
    rw [Nat.mod_eq_of_lt hlt]
    exact Nat.not_lt.mpr (length_joined chars last path).left
  have howned : (s.next :: s.blocks).Perm
      (s.dir.number.toList ++ s.next :: (s.returned ++ s.lost)) :=
    (h.owned.cons s.next).trans List.perm_middle.symm
  have ⟨bs, hf, hb, hs⟩ := freeCwd_eq (s := (s.malloc true).snd) howned
  have hj := head_joined last path (h.absolute chars hc)
  refine ⟨_, ?_, h.dir hb hs hj, rfl⟩
  rw [extendDir]
  dsimp only [Option.bind_eq_bind]
  rw [hc, Option.bind_some, hl, Option.bind_some]
  change (if _ then none else (s.malloc true).snd.freeCwd.bind _) = _
  rw [if_neg hsize, hf, Option.bind_some]
  rfl

theorem exists_getLast (h : s.Consistent) (hc : s.dir.chars = some chars) :
    ∃ last, chars.getLast? = some last := by
  have ha := h.absolute chars hc
  cases chars
  case nil          => contradiction
  case cons c chars => exact ⟨_, List.getLast?_eq_some_getLast (List.cons_ne_nil c chars)⟩

theorem extendDir_denied : s.extendDir path false = none := by
  rw [extendDir]
  dsimp only [Option.bind_eq_bind]
  cases s.dir.chars
  case none       => rfl
  case some chars =>
    rw [Option.bind_some]
    cases chars.getLast? <;> rfl

theorem extendDir_none_iff (h : s.Consistent) : s.extendDir path granted = none ↔
    (granted = true → ∀ chars ∈ s.dir.chars, 2 ^ 32 ≤ chars.length + path.length + 2) := by
  cases granted
  case false => exact iff_of_true extendDir_denied nofun
  case true =>
    cases hc : s.dir.chars
    case none =>
      rw [extendDir, hc]
      exact iff_of_true rfl fun _ => nofun
    case some chars =>
      have ⟨last, hl⟩ := exists_getLast h hc
      simp only [Option.mem_some_iff, forall_const, forall_eq']
      constructor
      case mp =>
        intro hn
        refine Nat.not_lt.mp fun hlt => ?_
        have ⟨s', hs, _⟩ := extendDir_eq path h hc hl hlt
        exact nomatch hn.symm.trans hs
      case mpr =>
        intro hge
        have hj := (length_joined chars last path).right
        rw [extendDir]
        dsimp only [Option.bind_eq_bind]
        rw [hc, Option.bind_some, hl, Option.bind_some]
        exact if_pos (by omega)

theorem extendDir_some (h : s.Consistent) (he : s.extendDir path granted = some s') :
    ∃ chars last, s.dir.chars = some chars ∧ chars.getLast? = some last ∧ s'.Consistent ∧
      s'.dir = .block s.next (joined chars last path) := by
  have hn := (extendDir_none_iff h).not.mp (he ▸ Option.some_ne_none s')
  push Not at hn
  obtain ⟨rfl, chars, hc, hlt⟩ := hn
  have ⟨last, hl⟩ := exists_getLast h hc
  have ⟨s₁, he₁, h₁⟩ := extendDir_eq path h hc hl hlt
  cases Option.some.inj (he.symm.trans he₁)
  exact ⟨chars, last, hc, hl, h₁⟩

-- What a call of `chdir` does.
theorem step_chdir (h : s.step ops (.chdir path granted) = some s') :
    (∃ e, s.internalResolve ops AT_FDCWD path = .error e ∧ s' = { s with errno := e }) ∨
    ∃ f s₁, s.internalResolve ops AT_FDCWD path = .ok f ∧ s' = { s₁ with cwd := f } ∧
      (if path.head? = some '/' then s.replaceDir path granted
        else s.extendDir path granted) = some s₁ := by
  rw [step, chdir] at h
  split at h
  case h_1 e he => exact .inl ⟨e, he, (Option.some.inj h).symm⟩
  case h_2 f hf =>
    dsimp only at h
    rw [Option.map_map] at h
    obtain ⟨s₁, hs, rfl⟩ := Option.map_eq_some_iff.mp h
    exact .inr ⟨f, s₁, hf, rfl, hs⟩

-- What a call of `getcwd` does if there is a string. A block which has been allocated is either
-- returned or lost.
theorem getcwd_eq (hc : s.dir.chars = some chars) (buf : Bool) (size : Nat) (granted : Bool) :
    ∃ r s', s.getcwd buf size granted = some (r, s') ∧ (∀ p ∈ r, p = chars) ∧
      s'.dir = s.dir ∧ s'.cwd = s.cwd ∧
      (s'.blocks = s.blocks ∧ s'.next = s.next ∧ s'.returned = s.returned ∧ s'.lost = s.lost ∨
        s'.blocks = s.next :: s.blocks ∧ s'.next = s.next + 1 ∧
          (s'.returned = s.next :: s.returned ∧ s'.lost = s.lost ∨
            s'.returned = s.returned ∧ s'.lost = s.next :: s.lost)) := by
  rw [getcwd, hc]
  dsimp only [Option.bind_eq_bind, Option.bind_some]
  generalize (if !buf ∧ size = 0 then chars.length + 1 else size) = n
  cases buf
  case true =>
    rw [if_pos rfl]
    split
    case isTrue  => exact ⟨_, _, rfl, nofun, rfl, rfl, .inl ⟨rfl, rfl, rfl, rfl⟩⟩
    case isFalse => exact ⟨_, _, rfl, by simp, rfl, rfl, .inl ⟨rfl, rfl, rfl, rfl⟩⟩
  case false =>
    cases granted
    case false => exact ⟨_, _, rfl, nofun, rfl, rfl, .inl ⟨rfl, rfl, rfl, rfl⟩⟩
    case true  =>
      by_cases hn : chars.length + 1 > n
      case pos => exact ⟨_, _, if_pos hn, nofun, rfl, rfl, .inr ⟨rfl, rfl, .inr ⟨rfl, rfl⟩⟩⟩
      case neg => exact ⟨_, _, if_neg hn, by simp, rfl, rfl, .inr ⟨rfl, rfl, .inl ⟨rfl, rfl⟩⟩⟩

theorem getcwd_none_iff : s.getcwd buf size granted = none ↔ s.dir.chars = none := by
  cases hc : s.dir.chars
  case none =>
    rw [getcwd, hc]
    exact iff_of_true rfl rfl
  case some chars =>
    obtain ⟨r, s', he, _⟩ := getcwd_eq hc buf size granted
    exact iff_of_false (by simp [he]) nofun

theorem step_getcwd (h : s.step ops (.getcwd buf size granted) = some s') :
    s'.dir = s.dir ∧ s'.cwd = s.cwd ∧
    (s'.blocks = s.blocks ∧ s'.next = s.next ∧ s'.returned = s.returned ∧ s'.lost = s.lost ∨
      s'.blocks = s.next :: s.blocks ∧ s'.next = s.next + 1 ∧
        (s'.returned = s.next :: s.returned ∧ s'.lost = s.lost ∨
          s'.returned = s.returned ∧ s'.lost = s.next :: s.lost)) := by
  rw [step] at h
  obtain ⟨⟨p, s₁⟩, hb, rfl⟩ := Option.map_eq_some_iff.mp h
  cases hc : s.dir.chars
  case none       => exact nomatch hb.symm.trans (getcwd_none_iff.mpr hc)
  case some chars =>
    obtain ⟨r, s₂, he, _, hs⟩ := getcwd_eq hc buf size granted
    cases Option.some.inj (hb.symm.trans he)
    exact hs

theorem getcwd_chars (h : s.getcwd buf size granted = some (some chars, s')) :
    s.dir.chars = some chars := by
  cases hc : s.dir.chars
  case none     => exact nomatch h.symm.trans (getcwd_none_iff.mpr hc)
  case some cwd =>
    obtain ⟨r, s₁, he, hr, _⟩ := getcwd_eq hc buf size granted
    cases Option.some.inj (h.symm.trans he)
    rw [hr chars rfl]

theorem step_fchdir {fd : Int} (h : s.step ops (.fchdir fd) = some s') :
    ops.getFile fd = none ∧ s' = { s with errno := EBADF } ∨
    ∃ f, ops.getFile fd = some f ∧ s' = { s with cwd := f } := by
  rw [step, fchdir] at h
  split at h
  case h_1 hf   => exact .inl ⟨hf, (Option.some.inj h).symm⟩
  case h_2 f hf => exact .inr ⟨f, hf, (Option.some.inj h).symm⟩

theorem Consistent.step (h : s.Consistent) (hs : CallStep ops s c s') : s'.Consistent := by
  obtain ⟨hs⟩ := hs
  cases c
  case chdir path granted =>
    obtain ⟨e, _, rfl⟩ | ⟨f, s₁, _, rfl, he⟩ := step_chdir hs
    case inl => exact ⟨h.absolute, h.owned, h.below, h.nodup⟩
    case inr =>
      have h₁ : s₁.Consistent := by
        split at he
        case isTrue hp =>
          have ⟨s₂, he₂, h₂, _⟩ := replaceDir_spec granted h hp
          exact Option.some.inj (he₂.symm.trans he) ▸ h₂
        case isFalse =>
          have ⟨_, _, _, _, h₁, _⟩ := extendDir_some h he
          exact h₁
      exact ⟨h₁.absolute, h₁.owned, h₁.below, h₁.nodup⟩
  case fchdir fd =>
    obtain ⟨_, rfl⟩ | ⟨f, _, rfl⟩ := step_fchdir hs
    case inl => exact ⟨h.absolute, h.owned, h.below, h.nodup⟩
    case inr => exact ⟨h.absolute, h.owned, h.below, h.nodup⟩
  case getcwd buf size granted =>
    obtain ⟨hd, _, ⟨hb, hn, hr, hl⟩ | ⟨hb, hn, hr⟩⟩ := step_getcwd hs
    case inl => exact ⟨hd ▸ h.absolute, hb ▸ hd ▸ hr ▸ hl ▸ h.owned, hb ▸ hn ▸ h.below, hb ▸ h.nodup⟩
    case inr =>
      have howned := (h.owned.cons s.next).trans List.perm_middle.symm
      refine ⟨hd ▸ h.absolute, ?_, fun n hm => hn ▸ h.lt_next (hb ▸ hm), hb ▸ h.nodup_next⟩
      obtain ⟨hr, hl⟩ | ⟨hr, hl⟩ := hr
      case inl => exact hb ▸ hd ▸ hr ▸ hl ▸ howned
      case inr =>
        rw [hb, hd, hr, hl]
        exact howned.trans (List.perm_middle.symm.append_left _)

theorem consistent_of_run (h : Run (CallStep ops) (boot ops) cs s) : s.Consistent :=
  h.invariant (P := Consistent) boot_consistent .step

-- A call faults only if `tmp` cannot be written, or if there is no string.
theorem step_none_iff (h : s.Consistent) : s.step ops c = none ↔ s.Faults ops c := by
  cases c
  case chdir path granted =>
    rw [step, Option.map_eq_none_iff, chdir, Faults]
    cases hf : s.internalResolve ops AT_FDCWD path
    case error e => exact iff_of_false nofun fun ⟨_, ⟨f, hf⟩, _⟩ => nomatch hf
    case ok f    =>
      by_cases hp : path.head? = some '/'
      case pos =>
        have ⟨s₁, he, _⟩ := replaceDir_spec granted h hp
        exact iff_of_false (by simp [if_pos hp, he]) fun hn => hn.left hp
      case neg =>
        simp only [if_neg hp, Option.map_eq_none_iff, extendDir_none_iff h]
        exact ⟨fun hn => ⟨hp, ⟨f, rfl⟩, hn⟩, fun hn => hn.right.right⟩
  case fchdir fd => exact iff_of_false nofun id
  case getcwd buf size granted =>
    rw [step, Option.map_eq_none_iff, getcwd_none_iff, Faults]
    obtain ⟨cwd, dir, errno, blocks, next, returned, lost⟩ := s
    cases dir
    case null    => exact iff_of_true rfl rfl
    case default => exact iff_of_false nofun nofun
    case block   => exact iff_of_false nofun nofun

-- In each run, the blocks on the heap are the one with the string, those which clients have
-- got and those which nobody has got. The string is absolute, and the calls which do not return are
-- known.
theorem owned_of_run (h : Run (CallStep ops) (boot ops) cs s) :
    s.blocks.Nodup ∧ s.blocks.Perm (s.dir.number.toList ++ (s.returned ++ s.lost)) ∧
    (∀ chars ∈ s.dir.chars, chars.head? = some '/') ∧ ∀ c, s.step ops c = none ↔ s.Faults ops c :=
  have h := consistent_of_run h
  ⟨h.nodup, h.owned, h.absolute, fun _ => step_none_iff h⟩

-- A file system in which each directory has all subdirectories, with one file which is open.
def tree : Ops (List (List Char)) where
  root          := []
  getFile fd    := if fd = 3 then some [['b', 'i', 'n']] else none
  openat dir path := .ok (dir ++ path.wordsP (· = '/'))

-- The buffer which is allocated is too small.
theorem owned_lost : ∃ s, Run (CallStep tree) (boot tree) [.chdir ['a'] true, .getcwd false 1 true] s ∧
    s.blocks.Perm [0, 1] ∧ s.lost = [1] := by
  have hr : Run (CallStep tree) (boot tree) [.chdir ['a'] true, .getcwd false 1 true] _ :=
    .cons ⟨rfl⟩ <| .cons ⟨rfl⟩ .refl
  exact ⟨_, hr, (owned_of_run hr).right.left, rfl⟩

end Process
end LibFile
