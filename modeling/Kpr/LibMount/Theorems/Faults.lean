import Kpr.LibMount.Theorems.Parsing

open Machine

namespace LibMount

variable {fn : List Char} {σ : Type} {verbose : Bool} {ops : σ → Request → Int × σ}
  {w : World σ} {env : Environment} {p : Char → Bool} {sz : Nat}

namespace File

-- The end of the range is not above its beginning, as it has wrapped around.
theorem advance_first : MAP_FAILED.advance p 0 sz = some 0 := by
  have hn : MAP_FAILED.address sz - MAP_FAILED.address 0 = 0 := by
    simp only [address, MAP_FAILED, Word.add]
    omega
  rw [advance, hn]
  rfl

-- The next address is `NULL`.
theorem advance_second (h₁ : 1 < sz) (hsz : sz < 2 ^ 32) : MAP_FAILED.advance p 1 sz = none := by
  obtain ⟨n, hn⟩ : ∃ n, MAP_FAILED.address sz - MAP_FAILED.address 1 = n + 1 := by
    apply Nat.exists_eq_succ_of_ne_zero
    simp only [address, MAP_FAILED, Word.add]
    omega
  rw [advance, hn]
  rfl

end File

-- Nothing is read in the first iteration. There is a second one unless the range ends at `NULL`.
theorem parseFstab_failed (hsz : sz < 2 ^ 32) :
    parseFstab verbose fn ops .MAP_FAILED sz w = none ↔ 1 < sz := by
  rw [parseFstab]
  generalize (if verbose then w.print (.parsing fn) else w) = w
  cases sz
  case zero => simp [parseLines]
  case succ n =>
    have hline {lineNr} {w : World σ} :
        parseFstabLine verbose fn ops .MAP_FAILED lineNr 0 0 w = some w := by
      rw [parseFstabLine, File.advance_first, Option.bind_eq_bind, Option.bind_some, if_pos rfl]
      rfl
    rw [parseLines, if_neg (Nat.succ_ne_zero n).symm]
    simp only [File.advance_first, Option.bind_eq_bind, Option.bind_some, hline]
    rw [if_neg (Nat.succ_ne_zero n).symm, parseLines]
    cases n
    case zero   => simp
    case succ n =>
      simp [File.advance_second (Nat.succ_lt_succ n.succ_pos) hsz]

-- What is assumed of a file which has been mapped.
def Environment.Works (env : Environment) : Prop :=
  0 ≤ env.mmap2 → env.contents.addr ≠ 0 ∧ env.stSize ≤ env.contents.bytes.length

theorem libmountInit_eq (h : env.Works) (hfd : 0 ≤ env.fd) (hstat : 0 ≤ env.stat)
    (hmap : 0 ≤ env.mmap2) : libmountInit ops env w =
      parseFstab env.debug env.path ops env.contents env.stSize w := by
  rw [libmountInit, if_neg (Int.not_lt.mpr hfd), if_neg (Int.not_lt.mpr hstat), Environment.mmap,
    if_neg (Int.not_lt.mpr hmap), if_neg (h hmap).left]

theorem libmountInit_none_iff (h : env.Works) : libmountInit ops env w = none ↔
    0 ≤ env.fd ∧ 0 ≤ env.stat ∧ env.mmap2 < 0 ∧ 1 < env.stSize := by
  by_cases hfd : env.fd < 0
  case pos => simp [libmountInit, hfd, Int.not_le.mpr hfd]
  case neg =>
    by_cases hstat : env.stat < 0
    case pos => simp [libmountInit, hfd, hstat, Int.not_le.mpr hstat]
    case neg =>
      by_cases hmap : env.mmap2 < 0
      case pos =>
        have hne : File.MAP_FAILED.addr ≠ 0 := by decide
        rw [libmountInit, if_neg hfd, if_neg hstat, Environment.mmap, if_pos hmap, if_neg hne,
          parseFstab_failed env.size]
        simp [hmap, Int.not_lt.mp hfd, Int.not_lt.mp hstat]
      case neg =>
        have hle := Int.not_lt.mp hmap
        rw [libmountInit_eq h (Int.not_lt.mp hfd) (Int.not_lt.mp hstat) hle, parseFstab_eq (h hle).right]
        simp [hmap]

-- The only page fault is the one at `NULL`, as `MAP_FAILED` is not equal to it. If the file is mapped,
-- then its table is mounted.
theorem libmountInit_faults (h : env.Works) :
    (libmountInit ops env w = none ↔
      0 ≤ env.fd ∧ 0 ≤ env.stat ∧ env.mmap2 < 0 ∧ 1 < env.stSize) ∧
    (0 ≤ env.fd → 0 ≤ env.stat → 0 ≤ env.mmap2 → ∃ w', libmountInit ops env w = some w' ∧
      w.Mounted ops ((table (env.contents.bytes.take env.stSize)).filterMap Line.request) w') := by
  refine ⟨libmountInit_none_iff h, fun hfd hstat hmap => ?_⟩
  rw [libmountInit_eq h hfd hstat hmap]
  exact ⟨_, parseFstab_eq (h hmap).right, .table⟩

-- There is no memory left to map the file.
def unmapped : Environment where
  debug    := false
  file     := none
  fd       := 3
  errno    := 0
  stat     := 0
  stSize   := 10
  size     := by decide
  mmap2    := -12
  contents := .MAP_FAILED

-- With a single byte, the range would have been empty.
theorem libmountInit_faults_unmapped :
    libmountInit counting unmapped { vfs := 0, errno := 0, requests := [], printed := [] } = none ∧
    libmountInit counting { unmapped with stSize := 1, size := by decide }
      { vfs := 0, errno := 0, requests := [], printed := [] } ≠ none := by
  have h {n : Nat} (hn : n < 2 ^ 32) : { unmapped with stSize := n, size := hn }.Works :=
    fun hle => absurd hle (show ¬(0 : Int) ≤ -12 by decide)
  constructor
  case left  => exact (libmountInit_faults (h (by decide))).left.mpr (by decide)
  case right => exact (libmountInit_faults (h (by decide))).left.not.mpr (by decide)

end LibMount
