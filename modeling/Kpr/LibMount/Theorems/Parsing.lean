import Kpr.LibMount.Table

open Machine

namespace LibMount

variable {file : File} {fn : List Char} {x : String} {σ : Type} {verbose : Bool}
  {ops : σ → Request → Int × σ} {w : World σ} {s fin sz lineNr fuel : Nat}

-- Within the file, no pointer wraps around.
theorem File.advance_stopped {p : Char → Bool} {i e : Nat} (hi : i ≤ e) (he : e ≤ file.bytes.length) :
    ∃ j, file.advance p i e = some j ∧ Stopped p file.bytes i e j := by
  have hfits := file.fits
  have hn : file.address e - file.address i = e - i := by
    rw [address, address, Word.add_of_lt (by omega), Word.add_of_lt (by omega)]
    omega
  rw [advance, hn]
  exact scan_stopped hi he

namespace String

-- The range of a string lies in the file, and its position lies in the range.
structure InFile (x : String) (file : File) : Prop where
  start : x.s ≤ x.p
  pos   : x.p ≤ x.e
  fin   : x.e ≤ file.bytes.length

def chars (x : String) (file : File) : List Char :=
  slice file.bytes x.s x.e

-- What is still in front of the position.
def rest (x : String) (file : File) : List Char :=
  slice file.bytes x.p x.e

theorem init_inFile (h : s ≤ fin) (hf : fin ≤ file.bytes.length) : (init s fin).InFile file :=
  ⟨Nat.le_refl s, h, hf⟩

namespace InFile

variable (h : x.InFile file)
include h

theorem empty_eq : x.empty = decide (x.chars file = []) := by
  rw [empty, decide_eq_decide, chars, ← List.length_eq_zero_iff, slice_length h.fin]

theorem dupnultermstr_eq : x.dupnultermstr file = some (cString (x.chars file)) := by
  have ⟨j, hj, hs⟩ := scan_stopped (p := (decide <| · = '\x00')) (h.start.trans h.pos) h.fin
  simp only [dupnultermstr, l, hj, cString, chars, decide_not, ← hs.front]
  rfl

-- Moving the position to the end of a word.
theorem nextSpace_eq : ∃ y, x.nextSpace file = some y ∧ y.InFile file ∧ y.s = x.s ∧ y.e = x.e ∧
    x.p ≤ y.p ∧ slice file.bytes x.p y.p = (x.rest file).takeWhile (!isspace ·) ∧
    y.rest file = (x.rest file).dropWhile (!isspace ·) := by
  have ⟨j, hj, hle, hfin, hfront, hrest⟩ := file.advance_stopped (p := isspace) h.pos h.fin
  refine ⟨{ x with p := j }, ?_, ⟨h.start.trans hle, hfin, h.fin⟩, rfl, rfl, hle, hfront, hrest⟩
  simp [nextSpace, hj]

-- Moving the position to the beginning of a word.
theorem eatSpace_eq : ∃ y, x.eatSpace file = some y ∧ y.InFile file ∧ y.s = x.s ∧ y.e = x.e ∧
    y.rest file = (x.rest file).dropWhile isspace := by
  have ⟨j, hj, hle, hfin, _, hrest⟩ := file.advance_stopped (p := (!isspace ·)) h.pos h.fin
  simp only [Bool.not_not] at hrest
  refine ⟨{ x with p := j }, ?_, ⟨h.start.trans hle, hfin, h.fin⟩, rfl, rfl, hrest⟩
  simp [eatSpace, hj]

end InFile

-- The words behind the one at the position.
def words (x : String) (file : File) : List (List Char) :=
  ((x.rest file).dropWhile (!isspace ·)).wordsP isspace

-- The statements by which the next field is read.
theorem InFile.field (h : x.InFile file) : ∃ y z t, x.nextSpace file = some y ∧
    y.eatSpace file = some z ∧ z.nextSpace file = some t ∧ t.InFile file ∧ t.s = x.s ∧ t.e = x.e ∧
    (init z.p t.p).InFile file ∧
    x.words file = if (init z.p t.p).chars file = [] then []
      else (init z.p t.p).chars file :: t.words file := by
  have ⟨y, hy, hyf, hys, hye, _, _, hyr⟩ := h.nextSpace_eq
  have ⟨z, hz, hzf, hzs, hze, hzr⟩ := hyf.eatSpace_eq
  have ⟨t, ht, htf, hts, hte, hle, hfield, htr⟩ := hzf.nextSpace_eq
  refine ⟨y, z, t, hy, hz, ht, htf, by rw [hts, hzs, hys], by rw [hte, hze, hye],
    init_inFile hle (htf.pos.trans htf.fin), ?_⟩
  change x.words file =
    if slice file.bytes z.p t.p = [] then [] else slice file.bytes z.p t.p :: t.words file
  rw [words, words, ← hyr, htr, List.dropWhile_dropWhile, hfield, hzr]
  exact List.wordsP_eq

end String

-- What a line says if its fields are known, where missing fields are empty.
theorem Line.of_eq {line text first dir ty data : List Char} {more : List (List Char)}
    (ht : text = line.takeWhile (· ≠ '#')) (hf : first = text.takeWhile (!isspace ·))
    (ho : (text.dropWhile (!isspace ·)).wordsP isspace = if dir = [] then [] else
      dir :: if ty = [] then [] else ty :: if data = [] then [] else data :: more) :
    Line.of line = if text = [] then .empty
      else if first = [] ∨ dir = [] ∨ ty = [] then .invalid text
      else .entry first dir ty data := by
  simp only [Line.of, ← ht, ← hf, ho]
  cases text
  case nil         => rfl
  case cons c text =>
    cases first
    case nil          => simp
    case cons d first =>
      cases dir <;> cases ty <;> cases data <;> simp

-- A line is understood as the table says, whatever it contains, and nothing outside of it is read.
theorem parseFstabLine_eq (h : s ≤ fin) (hf : fin ≤ file.bytes.length) :
    parseFstabLine verbose fn ops file lineNr s fin w =
      some (Line.perform verbose fn ops w (.of (slice file.bytes s fin), lineNr)) := by
  have ⟨end', hend, hle, hfin, htext, _⟩ := file.advance_stopped (p := (decide <| · = '#')) h hf
  have hline := String.init_inFile hle (hfin.trans hf)
  have ⟨l₁, h₁, hl₁, hs₁, he₁, hle₁, hfirst, hr₁⟩ := hline.nextSpace_eq
  have ⟨y₂, z₂, l₂, hy₂, hz₂, h₂, hl₂, hs₂, he₂, hx₂, hw₂⟩ := hl₁.field
  have ⟨y₃, z₃, l₃, hy₃, hz₃, h₃, hl₃, hs₃, he₃, hx₃, hw₃⟩ := hl₂.field
  have ⟨y₄, z₄, l₄, hy₄, hz₄, h₄, hl₄, hs₄, he₄, hx₄, hw₄⟩ := hl₃.field
  have hx₁ : (String.init l₁.s l₁.p).InFile file :=
    String.init_inFile hl₁.start (hl₁.pos.trans hl₁.fin)
  -- The statements are executed one after the other.
  rw [parseFstabLine]
  dsimp only [Option.bind_eq_bind]
  rw [hend, Option.bind_some, h₁, Option.bind_some, hy₂, Option.bind_some, hz₂, Option.bind_some, h₂,
    Option.bind_some, hy₃, Option.bind_some, hz₃, Option.bind_some, h₃, Option.bind_some, hy₄,
    Option.bind_some, hz₄, Option.bind_some, h₄, Option.bind_some, hx₁.empty_eq, hx₂.empty_eq,
    hx₃.empty_eq, hl₄.dupnultermstr_eq, Option.bind_some, hx₁.dupnultermstr_eq, Option.bind_some,
    hx₂.dupnultermstr_eq, Option.bind_some, hx₃.dupnultermstr_eq, Option.bind_some,
    hx₄.dupnultermstr_eq, Option.bind_some]
  have hrange : l₄.chars file = slice file.bytes s end' := by
    rw [String.chars, hs₄, hs₃, hs₂, hs₁, he₄, he₃, he₂, he₁]
    rfl
  have hfrom : (String.init l₁.s l₁.p).chars file =
      (slice file.bytes s end').takeWhile (!isspace ·) := hs₁ ▸ hfirst
  have hwords : ((slice file.bytes s end').dropWhile (!isspace ·)).wordsP isspace = l₁.words file := by
    rw [String.words, hr₁, List.dropWhile_dropWhile]
    rfl
  rw [hw₂, hw₃, hw₄] at hwords
  have hempty : s = end' ↔ slice file.bytes s end' = [] := by
    rw [← List.length_eq_zero_iff, slice_length (hfin.trans hf), Nat.sub_eq_zero_iff_le]
    exact ⟨(·.ge), hle.antisymm⟩
  rw [Line.of_eq (by simpa using htext) hfrom hwords]
  by_cases he : slice file.bytes s end' = []
  case pos => simp [hempty, he, Line.perform]
  case neg =>
    simp only [hempty, he, if_false, Bool.or_eq_true, decide_eq_true_eq, or_assoc, hrange]
    split
    case isTrue  => cases hv : verbose <;> rfl
    case isFalse => rfl

-- All lines are read, one after the other.
theorem parseLines_eq {fstab : Nat} (h : fstab ≤ fin) (hf : fin ≤ file.bytes.length)
    (hfuel : fin - fstab < fuel) :
    parseLines verbose fn ops file fin fuel fstab lineNr w =
      some (((table (slice file.bytes fstab fin)).zipIdx lineNr).foldl (Line.perform verbose fn ops) w) := by
  induction fuel generalizing fstab lineNr w
  case zero         => contradiction
  case succ fuel hi =>
    rw [parseLines]
    by_cases he : fstab = fin
    case pos =>
      rw [if_pos he, he, slice_self]
      rfl
    case neg =>
      have ⟨s, hs, hstop⟩ := file.advance_stopped (p := (decide <| · = '\n')) h hf
      rw [if_neg he, table, hstop.splitOn_eq hf]
      simp only [hs, Option.bind_eq_bind, Option.bind_some,
        parseFstabLine_eq hstop.le (hstop.fin.trans hf)]
      have hle := hstop.le
      have hfin := hstop.fin
      by_cases hs : s = fin
      case pos =>
        rw [if_pos hs, if_pos hs, hs]
        rfl
      case neg =>
        rw [if_neg hs, if_neg hs, hi (by omega) (by omega)]
        rfl

-- The first `sz` bytes are read as a table, and there is no access behind them.
theorem parseFstab_eq (h : sz ≤ file.bytes.length) : parseFstab verbose fn ops file sz w =
    some (((table (file.bytes.take sz)).zipIdx 1).foldl (Line.perform verbose fn ops)
      (if verbose then w.print (.parsing fn) else w)) := by
  rw [parseFstab, parseLines_eq (Nat.zero_le _) h (Nat.lt_succ_of_le (Nat.sub_le ..))]
  rfl

namespace World

-- The file systems have been mounted one after the other, whatever has become of the earlier ones.
structure Mounted (ops : σ → Request → Int × σ) (w : World σ) (rs : List Request) (w' : World σ) :
    Prop where
  requests : w'.requests = w.requests ++ rs
  vfs      : w'.vfs = rs.foldl (fun vfs r => (ops vfs r).snd) w.vfs

namespace Mounted

variable {w₁ w₂ w₃ : World σ} {rs rs' : List Request} {r : Request} {m : Message} {l : Line × Nat}
  {ls : List (Line × Nat)}

theorem refl : Mounted ops w [] w where
  requests := (List.append_nil _).symm
  vfs      := rfl

theorem trans (h : Mounted ops w₁ rs w₂) (h' : Mounted ops w₂ rs' w₃) :
    Mounted ops w₁ (rs ++ rs') w₃ where
  requests := by rw [h'.requests, h.requests, List.append_assoc]
  vfs      := by rw [h'.vfs, h.vfs, List.foldl_append]

theorem print (h : Mounted ops w₁ rs w₂) : Mounted ops w₁ rs (w₂.print m) :=
  ⟨h.requests, h.vfs⟩

theorem mount : Mounted ops w [r] (mount ops r w).snd := by
  rw [LibMount.mount]
  dsimp only
  split <;> exact ⟨rfl, rfl⟩

theorem mountEntry {s1 s2 s3 s5 : List Char} : Mounted ops w
    [{ special := s1, dir := stripSlash s2, fstype := s3, rwflag := 0, data := s5 }]
    (mountEntry verbose fn ops lineNr s1 s2 s3 s5 w) := by
  rw [LibMount.mountEntry]
  dsimp only
  split
  case isTrue  => exact mount.print
  case isFalse =>
    split
    case isTrue  => exact mount.print
    case isFalse => exact mount

-- Each line leads to at most one request.
theorem perform : Mounted ops w l.fst.request.toList (Line.perform verbose fn ops w l) := by
  have ⟨line, n⟩ := l
  cases line
  case empty        => exact refl
  case invalid text =>
    rw [Line.perform]
    split
    case isTrue  => exact refl.print
    case isFalse => exact refl
  case entry        => exact mountEntry

theorem foldl : Mounted ops w (ls.filterMap (·.fst.request))
    (ls.foldl (Line.perform verbose fn ops) w) := by
  induction ls generalizing w
  case nil          => exact refl
  case cons l ls hi =>
    have h : w.Mounted ops (l.fst.request.toList ++ ls.filterMap (·.fst.request))
        ((l :: ls).foldl (Line.perform verbose fn ops) w) := perform.trans hi
    cases hr : l.fst.request <;> simpa [hr] using h

end Mounted
end World

theorem filterMap_zipIdx {n : Nat} {ls : List Line} :
    (ls.zipIdx n).filterMap (·.fst.request) = ls.filterMap Line.request := by
  conv => rhs; rw [← List.zipIdx_map_fst n ls, List.filterMap_map]
  rfl

-- What is mounted by the lines of a table.
theorem World.Mounted.table {n : Nat} {ls : List Line} :
    w.Mounted ops (ls.filterMap Line.request)
      ((ls.zipIdx n).foldl (Line.perform verbose fn ops)
        (if verbose then w.print (.parsing fn) else w)) := by
  have h : w.Mounted ops [] (if verbose then w.print (.parsing fn) else w) := by
    split
    case isTrue  => exact .print .refl
    case isFalse => exact .refl
  rw [← filterMap_zipIdx (n := n)]
  exact h.trans .foldl

-- For each file, exactly the file systems of the valid lines are mounted, in their order.
-- Neither the results of these requests nor whether messages are printed make a difference.
theorem parseFstab_mounted (h : sz ≤ file.bytes.length) :
    ∃ w', parseFstab verbose fn ops file sz w = some w' ∧
      w.Mounted ops ((table (file.bytes.take sz)).filterMap Line.request) w' :=
  ⟨_, parseFstab_eq h, .table⟩

-- The file systems are only counted.
def counting (n : Nat) (_ : Request) : Int × Nat :=
  (0, n + 1)

def romFile : File where
  addr  := 0x8000
  bytes := "rom /a l4fs ro # b\nc".toList
  fits  := by decide

theorem parseFstab_mounted_rom : ∃ w' : World Nat,
    parseFstab false [] counting romFile 20 ⟨0, 0, [], []⟩ = some w' ∧ w'.vfs = 1 :=
  (parseFstab_mounted (by decide)).imp fun _ ⟨hw, h⟩ => ⟨hw, h.vfs.trans (by decide)⟩

end LibMount
