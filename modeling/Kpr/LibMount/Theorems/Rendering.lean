import Kpr.LibMount.Theorems.Parsing

namespace LibMount

variable {r : Row} {i : Item} {items : List Item} {f : Field} {b : Blank} {c : Comment}
  {fs : List (Blank × Field)} {t : Option Blank} {l : List Char} {a : Char}

namespace Field

theorem not_newline (h : a ∈ f.chars) : a ≠ '\n' := by
  rintro rfl
  exact absurd (f.plain _ h).left (by decide)

theorem cString_chars : cString f.chars = f.chars := by
  rw [cString, List.takeWhile_eq_self_iff]
  exact fun c hc => decide_eq_true (f.plain c hc).right.right

end Field

namespace Blank

theorem not_hash (h : a ∈ b.chars) : a ≠ '#' := by
  rintro rfl
  exact absurd (b.blank _ h).left (by decide)

-- What follows a field begins with a blank, or it is empty.
theorem head_append (h : a ∈ (b.chars ++ l).head?) : isspace a = true := by
  obtain ⟨d, ds, hb⟩ := List.exists_cons_of_ne_nil b.ne
  rw [hb] at h
  obtain rfl : d = a := Option.some.inj h
  exact (b.blank d (hb ▸ List.mem_cons_self)).left

end Blank

def fieldChars (fs : List (Blank × Field)) (t : Option Blank) : List Char :=
  fs.flatMap (fun f => f.fst.chars ++ f.snd.chars) ++ (t.map Blank.chars).getD []

theorem fieldChars_cons {x : Blank × Field} : fieldChars (x :: fs) t =
    x.fst.chars ++ (x.snd.chars ++ fieldChars fs t) := by
  simp [fieldChars]

theorem fieldChars_head (h : a ∈ (fieldChars fs t).head?) : isspace a = true := by
  cases fs
  case nil =>
    cases t
    case none   => contradiction
    case some b => exact b.head_append (l := []) (by simpa [fieldChars] using h)
  case cons x fs =>
    rw [fieldChars_cons] at h
    exact x.fst.head_append h

theorem mem_fieldChars (h : a ∈ fieldChars fs t) : a ≠ '#' ∧ a ≠ '\n' := by
  simp only [fieldChars, List.mem_append, List.mem_flatMap] at h
  rcases h with ⟨x, _, h | h⟩ | h
  · exact ⟨x.fst.not_hash h, (x.fst.blank a h).right⟩
  · exact ⟨(x.snd.plain a h).right.left, x.snd.not_newline h⟩
  · cases t
    case none   => contradiction
    case some b => exact ⟨b.not_hash h, (b.blank a h).right⟩

-- The fields are the words.
theorem wordsP_fieldChars : (fieldChars fs t).wordsP isspace = fs.map (·.snd.chars) := by
  induction fs
  case nil =>
    cases t
    case none   => exact List.wordsP_nil
    case some b =>
      have h := List.wordsP_append_left (l := []) fun c hc => (b.blank c hc).left
      rwa [List.append_nil, List.wordsP_nil] at h
  case cons x fs hi =>
    rw [fieldChars_cons, List.wordsP_append_left fun c hc => (x.fst.blank c hc).left,
      List.wordsP_append x.snd.ne (fun c hc => (x.snd.plain c hc).left) fun _ => fieldChars_head, hi]
    rfl

namespace Row

theorem body_eq : r.body = r.special.chars ++ fieldChars r.others r.trailing :=
  List.append_assoc ..

theorem mem_body (h : a ∈ r.body) : a ≠ '#' ∧ a ≠ '\n' := by
  cases List.mem_append.mp (body_eq ▸ h)
  case inl h => exact ⟨(r.special.plain a h).right.left, r.special.not_newline h⟩
  case inr h => exact mem_fieldChars h

end Row

-- The text of a line ends where the comment begins.
theorem takeWhile_comment (h : ∀ a ∈ l, a ≠ '#') :
    (l ++ c.chars).takeWhile (· ≠ '#') = l := by
  have h' := List.takeWhile_append_eq (p := (decide <| · = '#')) (l := c.chars)
    (fun a ha => decide_eq_false (h a ha)) fun a ha => decide_eq_true (c.begins a ha)
  simpa using h'

namespace Item

-- Whatever is written is read.
theorem of_chars : Line.of i.chars = i.line := by
  cases i
  case comment c =>
    have h := takeWhile_comment (l := []) (c := c) nofun
    rw [Line.of, chars, ← List.nil_append c.chars, h]
    rfl
  case row r =>
    have ht : (Item.row r).chars.takeWhile (· ≠ '#') = r.body :=
      takeWhile_comment fun a ha => (Row.mem_body ha).left
    have hs : ∀ a ∈ r.special.chars, isspace a = false := fun a ha => (r.special.plain a ha).left
    have hf : r.body.takeWhile (!isspace ·) = r.special.chars :=
      r.body_eq ▸ List.takeWhile_append_eq hs fun _ => fieldChars_head
    have ho : (r.body.dropWhile (!isspace ·)).wordsP isspace = r.others.map (·.snd.chars) := by
      rw [r.body_eq, List.dropWhile_append_eq hs fun _ => fieldChars_head, wordsP_fieldChars]
    rw [Line.of, ht, hf, ho]
    have hne : r.body ≠ [] := by
      rw [r.body_eq]
      exact List.append_ne_nil_of_left_ne_nil r.special.ne _
    obtain ⟨a, as, ha⟩ := List.exists_cons_of_ne_nil hne
    obtain ⟨d, ds, hd⟩ := List.exists_cons_of_ne_nil r.special.ne
    rw [ha, hd, line, hd, Row.data, Row.others]
    cases r.more <;> rfl

theorem not_newline (h : '\n' ∈ i.chars) : False := by
  cases i
  case comment c => exact c.oneRow h
  case row r     =>
    cases List.mem_append.mp h
    case inl h => exact (Row.mem_body h).right rfl
    case inr h => exact r.comment.oneRow h

theorem request_line : i.line.request = i.request := by
  cases i
  case comment => rfl
  case row r   =>
    have hd : cString r.data = r.data := by
      rw [Row.data]
      cases r.more
      case nil       => rfl
      case cons x xs => exact x.snd.cString_chars
    simp only [line, request, Line.request, Field.cString_chars, hd]

end Item

-- The lines of a table which is written out.
theorem table_render : table (render items) = items.map Item.line ++ [.empty] := by
  induction items
  case nil           => rfl
  case cons i is hi =>
    rw [table] at hi
    rw [render, List.flatMap_cons, ← render, List.append_assoc, List.singleton_append, table,
      List.splitOn_append_cons_self_of_not_mem Item.not_newline, List.map_cons, hi, Item.of_chars]
    rfl

-- A table which is written out, with any white space and comments, is mounted as it has been written,
-- wherever the file is.
theorem parseFstab_render {file : File} {fn : List Char} {σ : Type} {verbose : Bool}
    {ops : σ → Request → Int × σ} {w : World σ} (h : file.bytes = render items) :
    ∃ w', parseFstab verbose fn ops file file.bytes.length w = some w' ∧
      w.Mounted ops (items.filterMap Item.request) w' := by
  have hr : (table (render items)).filterMap Line.request = items.filterMap Item.request := by
    rw [table_render, List.filterMap_append, List.filterMap_map]
    simp only [Function.comp_def, Item.request_line]
    exact List.append_nil _
  refine ⟨_, parseFstab_eq (Nat.le_refl _), ?_⟩
  rw [List.take_length, h, ← hr]
  exact .table

def romItems : List Item := [
  .comment { chars := ['#', 'a'], begins := by simp, oneRow := by simp },
  .row {
    special  := ⟨['r', 'o', 'm'], List.cons_ne_nil _ _, by simp [isspace]⟩
    dir      := (⟨[' '], List.cons_ne_nil _ _, by simp [isspace]⟩,
      ⟨['/', 'a'], List.cons_ne_nil _ _, by simp [isspace]⟩)
    fstype   := (⟨['\t', ' '], List.cons_ne_nil _ _, by simp [isspace]⟩,
      ⟨['l', '4', 'f', 's'], List.cons_ne_nil _ _, by simp [isspace]⟩)
    more     := [(⟨[' '], List.cons_ne_nil _ _, by simp [isspace]⟩,
      ⟨['r', 'o'], List.cons_ne_nil _ _, by simp [isspace]⟩)]
    trailing := some ⟨[' '], List.cons_ne_nil _ _, by simp [isspace]⟩
    comment  := { chars := ['#'], begins := by simp, oneRow := by simp } }]

def romTable : File where
  addr  := 0x8000
  bytes := render romItems
  fits  := by decide

theorem parseFstab_render_rom : ∃ w' : World Nat,
    parseFstab true [] counting romTable romTable.bytes.length ⟨0, 0, [], []⟩ = some w' ∧
      w'.requests = [⟨"rom".toList, "a".toList, "l4fs".toList, 0, "ro".toList⟩] :=
  have h : romTable.bytes = render romItems := rfl
  (parseFstab_render h).imp fun _ hw => ⟨hw.left, hw.right.requests.trans (by decide)⟩

end LibMount
