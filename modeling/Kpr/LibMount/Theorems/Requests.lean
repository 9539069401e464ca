import Kpr.LibMount.Theorems.Parsing

namespace LibMount

variable {file : File} {fn line s sp dir ty data : List Char} {l : Line} {r : Request} {c : Char}
  {sz : Nat}

-- The fields of a line, in order.
def Line.fields (line : List Char) : List (List Char) :=
  let text := line.takeWhile (· ≠ '#')
  text.takeWhile (!isspace ·) :: (text.dropWhile (!isspace ·)).wordsP isspace

-- What is known of each file system which is mounted for a line.
structure Request.OfLine (r : Request) (line : List Char) : Prop where
  plain   : ∀ s ∈ [r.special, r.dir, r.fstype, r.data], ∀ c ∈ s,
    c ∈ line ∧ isspace c = false ∧ c ≠ '#' ∧ c ≠ '\x00'
  flags   : r.rwflag = 0
  first   : r.special <+: line
  -- Only fields which begin with a `NUL` are passed as empty strings.
  special : r.special = [] → ∃ s, (Line.fields line)[0]? = some ('\x00' :: s)
  fstype  : r.fstype = [] → ∃ s, (Line.fields line)[2]? = some ('\x00' :: s)

namespace Line

-- The characters of a field.
structure Proper (line s : List Char) : Prop where
  ne    : s ≠ []
  chars : ∀ c ∈ s, c ∈ line ∧ isspace c = false ∧ c ≠ '#'

theorem proper_of_mem (h : s ∈ fields line) (hn : s ≠ []) : Proper line s := by
  refine ⟨hn, fun c hc => ?_⟩
  have ⟨hm, hs⟩ : c ∈ line.takeWhile (· ≠ '#') ∧ isspace c = false := by
    cases List.mem_cons.mp h
    case inl h =>
      subst h
      exact ⟨List.takeWhile_subset _ hc, by simpa using List.mem_takeWhile_imp hc⟩
    case inr h => exact ((List.mem_wordsP h).right c hc).imp_left (List.dropWhile_subset _ ·)
  exact ⟨List.takeWhile_subset _ hm, hs, by simpa using List.mem_takeWhile_imp hm⟩

-- An entry consists of the first four fields, of which the last one may be missing.
theorem fields_of_entry (h : Line.of line = .entry sp dir ty data) :
    ∃ more, fields line = sp :: dir :: ty :: more ∧ sp ≠ [] ∧ (data = [] ∨ data ∈ more) := by
  rw [Line.of] at h
  rw [fields]
  generalize line.takeWhile (· ≠ '#') = text at h ⊢
  generalize (text.dropWhile (!isspace ·)).wordsP isspace = others at h ⊢
  generalize text.takeWhile (!isspace ·) = first at h ⊢
  cases text
  case nil => contradiction
  case cons c text =>
    cases first
    case nil => contradiction
    case cons d first =>
      cases others
      case nil => contradiction
      case cons w others =>
        cases others
        case nil => contradiction
        case cons w' others =>
          cases others
          case nil =>
            cases h
            exact ⟨[], rfl, List.cons_ne_nil _ _, .inl rfl⟩
          case cons w'' others =>
            cases h
            exact ⟨_, rfl, List.cons_ne_nil _ _, .inr List.mem_cons_self⟩

-- All fields but the first one are words.
theorem ne_nil_of_mem {ss : List (List Char)} (h : fields line = sp :: ss) (hs : s ∈ ss) : s ≠ [] := by
  obtain rfl : _ = ss := List.tail_eq_of_cons_eq h
  exact (List.mem_wordsP hs).left

theorem prefix_of_fields {ss : List (List Char)} (h : fields line = s :: ss) : s <+: line := by
  obtain rfl : _ = s := List.head_eq_of_cons_eq h
  exact (List.takeWhile_prefix _).trans (List.takeWhile_prefix _)

end Line

-- A string which is not empty is only seen as empty if it begins with a `NUL`.
theorem exists_of_cString_eq_nil (hs : s ≠ []) (h : cString s = []) : ∃ t, s = '\x00' :: t := by
  obtain ⟨c, t, rfl⟩ := List.exists_cons_of_ne_nil hs
  have hc : c = '\x00' := by simpa [cString, List.takeWhile_eq_nil_iff] using h
  exact ⟨t, hc ▸ rfl⟩

theorem mem_cString (h : ∀ c ∈ s, c ∈ line ∧ isspace c = false ∧ c ≠ '#') (hc : c ∈ cString s) :
    c ∈ line ∧ isspace c = false ∧ c ≠ '#' ∧ c ≠ '\x00' := by
  have ⟨hl, hs, hh⟩ := h c (List.takeWhile_subset _ hc)
  exact ⟨hl, hs, hh, by simpa using List.mem_takeWhile_imp hc⟩

theorem stripSlash_subset : stripSlash s ⊆ s := by
  unfold stripSlash
  split
  case h_1 => exact List.subset_cons_self ..
  case h_2 => exact List.Subset.refl _

-- Only what is written in one line is passed to `mount`.
theorem Line.request_ofLine (h : (Line.of line).request = some r) : r.OfLine line := by
  cases hl : Line.of line
  case empty   => rw [hl] at h; contradiction
  case invalid => rw [hl] at h; contradiction
  case entry sp dir ty data =>
    have ⟨more, hfields, hne, hdata⟩ := fields_of_entry hl
    have hproper {s} (hs : s ∈ sp :: dir :: ty :: more) : Proper line s :=
      proper_of_mem (hfields ▸ hs) <| (List.mem_cons.mp hs).elim (· ▸ hne) (ne_nil_of_mem hfields)
    rw [hl] at h
    obtain rfl := Option.some.inj h
    constructor
    case flags   => rfl
    case first   => exact (List.takeWhile_prefix _).trans (prefix_of_fields hfields)
    case special =>
      intro hn
      have ⟨t, ht⟩ := exists_of_cString_eq_nil hne hn
      exact ⟨t, by rw [hfields, ht]; rfl⟩
    case fstype  =>
      intro hn
      have ⟨t, ht⟩ := exists_of_cString_eq_nil (hproper (by simp)).ne hn
      exact ⟨t, by rw [hfields, ht]; rfl⟩
    case plain   =>
      simp only [List.forall_mem_cons, List.not_mem_nil, false_imp_iff, implies_true, and_true]
      refine ⟨fun c => mem_cString (hproper (by simp)).chars,
        fun c hc => mem_cString (hproper (by simp)).chars (stripSlash_subset hc),
        fun c => mem_cString (hproper (by simp)).chars, fun c => ?_⟩
      cases hdata
      case inl hd => exact hd ▸ nofun
      case inr hd => exact mem_cString (hproper (by simp [hd])).chars

-- The type begins with a `NUL`.
def nulFile : File where
  addr  := 0x8000
  bytes := "/ / \x00l4fs".toList
  fits  := by decide

end LibMount
