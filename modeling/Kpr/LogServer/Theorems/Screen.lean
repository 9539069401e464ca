import Kpr.LogServer.Theorems.Leftovers

open Machine

namespace LogServer

variable {g : Graphics} {glyphs : Glyphs} {v : View} {l : Log} {n a b j k : Nat} {u : Utcb n}
  {us : List (Utcb n)} {str text : List Byte} {texts : List (List Byte)}
  {fg bg : Color}

-- What is shown of a text: spaces stand for all characters but the printable ones.
def visible (text : List Byte) : List Byte :=
  text.map fun c => if 33 ≤ c.toNat ∧ c.toNat ≤ 126 then c else 32

theorem replaceSpecial_eq : replaceSpecial str = visible str := by
  apply List.map_congr_left
  intro c _
  have hc : (c.toInt < 127 ∧ c.toInt > 32) ↔ 33 ≤ c.toNat ∧ c.toNat ≤ 126 := by
    rw [BitVec.toInt_eq_toNat_cond]
    have := c.isLt
    split <;> omega
  by_cases hp : 33 ≤ c.toNat ∧ c.toNat ≤ 126
  case pos =>
    have ⟨h₁, h₂⟩ := hc.mpr hp
    simp [hp, h₁, h₂]
  case neg =>
    have hn := hc.not.mpr hp
    rw [if_neg hp, ← Bool.decide_and, decide_eq_false hn]
    rfl

namespace Utcb

def IsWrite (u : Utcb n) : Prop :=
  u.label = .LOG ∧ u.op = .WRITE

instance : DecidablePred (IsWrite (n := n)) :=
  fun _ => inferInstanceAs (Decidable (_ ∧ _))

-- The bytes which a client sends, as many as it says.
def sent (u : Utcb n) : List Byte :=
  u.text.take u.count

-- The text of a message, which ends where the client puts a `NUL` or stops.
def message (u : Utcb n) : List Byte :=
  u.sent.takeWhile (· ≠ 0)

-- There is a `NUL` in the bytes of a message or right behind them.
def Delimited (u : Utcb n) : Prop :=
  u.IsWrite → 0 ∈ (u.text ++ u.behind).take (u.sent.length + 1)

-- What the server takes for the text, and whether it finds the end of it.

def found (u : Utcb n) : List Byte :=
  (u.text ++ u.behind).takeWhile (· ≠ 0)

def Terminated (u : Utcb n) : Prop :=
  u.IsWrite → 0 ∈ u.text ++ u.behind

end Utcb

-- The messages of the requests, in order.
def messages (us : List (Utcb n)) : List (List Byte) :=
  (us.filter (·.IsWrite)).map Utcb.message

-- The colors of the messages alternate.
def colorAt (fg : Color) (k : Nat) : Color :=
  if k % 2 = 0 then fg else ~~~fg

theorem colorAt_succ : colorAt fg (k + 1) = ~~~colorAt fg k := by
  by_cases hk : k % 2 = 0
  case pos =>
    have hk' : (k + 1) % 2 ≠ 0 := by omega
    rw [colorAt, colorAt, if_pos hk, if_neg hk']
  case neg =>
    have hk' : (k + 1) % 2 = 0 := by omega
    rw [colorAt, colorAt, if_neg hk, if_pos hk', BitVec.not_not]

-- The rows of the `j`-th line from the bottom show the text and nothing else.
def Screen.Shows (fb : Screen) (glyphs : Glyphs) (v : View) (fontHeight j : Nat)
    (text : List Byte) (fg bg : Color) : Prop :=
  ∀ a < v.width, ∀ i < fontHeight,
    fb a (v.height - j * fontHeight + i) = (glyphs text fg bg a i).getD 0

namespace Log

-- After the messages `texts`, as many of them as fit are shown, with the most recent one at the
-- bottom.
structure Displays (g : Graphics) (glyphs : Glyphs) (v : View) (l : Log)
    (texts : List (List Byte)) : Prop where
  view       : l.view = v
  fontHeight : l.fontHeight = g.fontHeight
  lastLine   : l.lastLine + g.fontHeight = v.height
  fgColor    : l.fgColor = colorAt (g.convertColor v 0xff00b3) texts.length
  bgColor    : l.bgColor = g.convertColor v 0x000000
  lines      : ∀ j, 1 ≤ j → j ≤ texts.length → j * g.fontHeight ≤ v.height →
    ∃ text ∈ texts[texts.length - j]?, l.fb.Shows glyphs v g.fontHeight j (visible text)
      (colorAt (g.convertColor v 0xff00b3) (texts.length - j)) (g.convertColor v 0x000000)

theorem init_displays (hh : g.fontHeight ≤ v.height) : (init g v).Displays g glyphs v [] where
  view            := rfl
  fontHeight      := rfl
  lastLine        := (congrArg (· + _) <| Word.sub_of_le hh).trans <| Nat.sub_add_cancel hh
  fgColor         := rfl
  bgColor         := rfl
  lines _ hj hm _ := absurd (Nat.le_trans hj hm) (by decide)

namespace Displays

variable (hd : g.Documented glyphs) (h : l.Displays g glyphs v texts)
include hd h

-- The text is drawn on the last line, and everything above it moves up by one line.
theorem render_fb (ha : a < v.width) (hb : b < v.height) : (l.render g str).fb a b =
    if l.lastLine ≤ b then
      (glyphs str l.fgColor l.bgColor a (b - l.lastLine)).getD 0
    else
      l.fb a (b + g.fontHeight) := by
  have hl := h.lastLine
  rw [render, h.view, h.fontHeight]
  simp only [hd.fontText _ _ _ _ _ _ _ _ ha _ hb, hd.fill _ _ _ _ _ _ _ _ ha _ hb,
    hd.copy _ _ _ _ _ _ _ _ _ ha _ hb]
  by_cases hlast : l.lastLine ≤ b
  case pos =>
    have htext : 0 ≤ a ∧ l.lastLine ≤ b ∧ b < l.lastLine + g.fontHeight := by omega
    have hfill : 0 ≤ a ∧ a < 0 + v.width ∧ l.lastLine ≤ b ∧ b < l.lastLine + v.height := by omega
    rw [if_pos htext, if_pos hfill, if_pos hlast]
    rfl
  case neg =>
    have hcopy : 0 ≤ a ∧ a < 0 + v.width ∧ 0 ≤ b ∧ b < 0 + v.height ∧
        0 + (a - 0) < v.width ∧ g.fontHeight + (b - 0) < v.height := by omega
    rw [if_neg (fun hc => hlast hc.right.left), if_neg (fun hc => hlast hc.right.right.left),
      if_pos hcopy, if_neg hlast]
    simp [Nat.add_comm]

theorem render_last :
    (l.render g str).fb.Shows glyphs v g.fontHeight 1 str l.fgColor l.bgColor := by
  intro a ha i hi
  have hl := h.lastLine
  have hrow : v.height - 1 * g.fontHeight + i = l.lastLine + i := by omega
  rw [hrow, h.render_fb hd ha (by omega), if_pos (Nat.le_add_right ..), Nat.add_sub_cancel_left]

theorem render_line (hs : l.fb.Shows glyphs v g.fontHeight j text fg bg) (hj : 1 ≤ j)
    (hle : (j + 1) * g.fontHeight ≤ v.height) :
    (l.render g str).fb.Shows glyphs v g.fontHeight (j + 1) text fg bg := by
  intro a ha i hi
  have hl := h.lastLine
  have hmul := Nat.mul_le_mul_right g.fontHeight hj
  rw [Nat.succ_mul] at hle ⊢
  have hrow : v.height - (j * g.fontHeight + g.fontHeight) + i + g.fontHeight =
      v.height - j * g.fontHeight + i := by omega
  rw [h.render_fb hd ha (by omega), if_neg (by omega), hrow]
  exact hs a ha i hi

theorem render : (l.render g (visible text)).Displays g glyphs v (texts ++ [text]) where
  view       := h.view
  fontHeight := h.fontHeight
  lastLine   := h.lastLine
  fgColor    := by
    rw [List.length_append, List.length_singleton, colorAt_succ, ← h.fgColor]
    rfl
  bgColor    := h.bgColor
  lines j hj hm hle := by
    rw [List.length_append, List.length_singleton] at *
    obtain rfl | hlt := Nat.eq_or_lt_of_le hj
    case inl =>
      refine ⟨text, by simp, ?_⟩
      rw [Nat.add_sub_cancel, ← h.fgColor, ← h.bgColor]
      exact h.render_last hd
    case inr =>
      obtain ⟨j, rfl⟩ := Nat.exists_eq_add_of_le' hj
      have hj : 1 ≤ j := by omega
      have hle' := Nat.le_trans (Nat.mul_le_mul_right g.fontHeight (Nat.le_succ j)) hle
      obtain ⟨text, ht, hs⟩ := h.lines j hj (by omega) hle'
      rw [Nat.add_sub_add_right]
      refine ⟨text, ?_, h.render_line hd hs hj hle⟩
      rwa [List.getElem?_append_left (by omega)]

-- Only requests to write change what is shown.
theorem dispatch (ht : u.Terminated) : ∃ s l', l.dispatch g u = some (s, l') ∧
    l'.Displays g glyphs v (texts ++ if u.IsWrite then [u.found] else []) := by
  by_cases hw : u.IsWrite
  case pos =>
    rw [if_pos hw]
    rw [u.dispatch_eq hw.left hw.right, cString, if_pos (ht hw)]
    refine ⟨.EOK, _, rfl, ?_⟩
    rw [replaceSpecial_eq]
    exact h.render hd
  case neg =>
    rw [if_neg hw, List.append_nil, Log.dispatch]
    by_cases hl : u.label = .LOG
    case pos =>
      rw [if_neg (not_not_intro hl)]
      cases ho : u.op
      case WRITE => exact absurd ⟨hl, ho⟩ hw
      all_goals exact ⟨.EOK, l, rfl, h⟩
    case neg => exact ⟨.EBADPROTO, l, if_pos hl, h⟩

theorem serve (ht : ∀ u ∈ us, u.Terminated) : ∃ l', l.serve g us = some l' ∧
    l'.Displays g glyphs v (texts ++ (us.filter (·.IsWrite)).map Utcb.found) := by
  induction us generalizing l texts
  case nil => exact ⟨l, rfl, by simpa using h⟩
  case cons u us hi =>
    have ⟨hu, hus⟩ := List.forall_mem_cons.mp ht
    obtain ⟨s, l', hl', h'⟩ := h.dispatch hd hu
    obtain ⟨l'', hl'', h''⟩ := hi h' hus
    refine ⟨l'', ?_, ?_⟩
    · rw [Log.serve, List.foldlM_cons, hl']
      exact hl''
    · rw [List.append_assoc] at h''
      by_cases hw : u.IsWrite <;> simpa [hw] using h''

end Displays

-- A text without an end is fatal.
theorem terminated_of_serve {l' : Log} (h : l.serve g us = some l') : ∀ u ∈ us, u.Terminated := by
  induction us generalizing l
  case nil => exact nofun
  case cons u us hi =>
    have ⟨l₁, h₁, hs⟩ := Option.bind_eq_some_iff.mp h
    refine List.forall_mem_cons.mpr ⟨fun hw => ?_, hi hs⟩
    by_contra hn
    dsimp only at h₁
    rw [u.dispatch_eq hw.left hw.right, cString, if_neg hn] at h₁
    contradiction

end Log

-- The string is not longer than `k` bytes if there is a `NUL` behind the first `k` bytes or earlier.
theorem length_takeWhile_le_iff (h₀ : 0 ∈ text) {k : Nat} :
    (text.takeWhile (· ≠ 0)).length ≤ k ↔ 0 ∈ text.take (k + 1) := by
  induction text generalizing k
  case nil => contradiction
  case cons c text hi =>
    by_cases hc : c = 0
    case pos => simp [hc]
    case neg =>
      have h₀ : 0 ∈ text := List.mem_of_ne_of_mem (Ne.symm hc) h₀
      have hm {l : List Byte} : 0 ∈ c :: l ↔ 0 ∈ l := List.mem_cons.trans <| or_iff_right (Ne.symm hc)
      have hp : (c :: text).takeWhile (· ≠ 0) = c :: text.takeWhile (· ≠ 0) :=
        List.takeWhile_cons_of_pos (decide_eq_true hc)
      rw [hp, List.length_cons, List.take_succ_cons, hm]
      cases k
      case zero   => simp
      case succ k => exact Nat.succ_le_succ_iff.trans (hi h₀)

namespace Utcb

theorem sent_eq : u.sent = (u.text ++ u.behind).take u.sent.length := by
  rw [sent, List.length_take, List.take_append_of_le_length (Nat.min_le_right ..), List.take_eq_take_min]

theorem Writes.sent_eq (h : u.Writes text) : u.sent = text := by
  rw [sent, h.count]
  exact (List.prefix_iff_eq_take.mp h.text).symm

-- The message is what has been sent of the text which is found.
theorem message_eq : u.message = u.found.take u.sent.length := by
  rw [message, found, List.take_takeWhile, ← sent_eq]

theorem Delimited.terminated (h : u.Delimited) : u.Terminated :=
  fun hw => List.mem_of_mem_take (h hw)

theorem Writes.delimited (h : u.Writes text) (h₀ : 0 ∈ text) : u.Delimited := by
  rw [← h.sent_eq, Utcb.sent_eq] at h₀
  exact fun _ => List.take_subset_take_left _ (Nat.le_succ _) h₀

-- Nothing else is found if the text ends in time.
theorem Delimited.found_eq (h : u.Delimited) (hw : u.IsWrite) : u.found = u.message := by
  have hl : u.found.length ≤ u.sent.length := (length_takeWhile_le_iff (h.terminated hw)).mpr (h hw)
  rw [message_eq, List.take_of_length_le hl]

-- Otherwise, what is left in the registers is taken for a part of the text.
theorem length_message_lt (ht : u.Terminated) (h : ¬u.Delimited) :
    u.message.length < u.found.length := by
  have ⟨hw, hd⟩ := Classical.not_imp.mp h
  have hl : ¬u.found.length ≤ u.sent.length := (length_takeWhile_le_iff (ht hw)).not.mpr hd
  rw [message_eq, List.length_take]
  omega

end Utcb

-- Whatever the library and the view, the most recent messages are shown in order, as many as fit.
def MessagesShown (us : List (Utcb n)) : Prop :=
  ∀ (g : Graphics) (glyphs : Glyphs) (v : View), g.Documented glyphs → 1 ≤ g.fontHeight →
    g.fontHeight ≤ v.height →
    let texts := messages us
    let fg := g.convertColor v 0xff00b3
    let bg := g.convertColor v 0x000000
    ∃ l, (Log.init g v).serve g us = some l ∧
      ∀ j, 1 ≤ j → j ≤ texts.length → j * g.fontHeight ≤ v.height →
        ∃ text ∈ texts[texts.length - j]?,
          l.fb.Shows glyphs v g.fontHeight j (visible text) (colorAt fg (texts.length - j)) bg

-- If each character is a column, then the length of a text can be told from the screen.
theorem Screen.Shows.length_le {fb : Screen} {fg' bg' : Color}
    (h : fb.Shows columns v 1 j text fg bg) (h' : fb.Shows columns v 1 j str fg' bg')
    (hw : text.length < v.width) : str.length ≤ text.length := by
  have hp := (h _ hw 0 Nat.one_pos).symm.trans (h' _ hw 0 Nat.one_pos)
  rw [columns, columns, if_neg (Nat.lt_irrefl _)] at hp
  by_contra hlt
  rw [if_pos (Nat.not_le.mp hlt)] at hp
  contradiction

theorem length_visible : (visible text).length = text.length :=
  List.length_map _

-- A text of which too much is found looks different from the message.
theorem not_messagesShown (hu : u ∈ us) (hn : ¬u.Delimited) : ¬MessagesShown us := by
  intro h
  have ⟨hw, _⟩ := Classical.not_imp.mp hn
  have hf : u ∈ us.filter (·.IsWrite) := List.mem_filter.mpr ⟨hu, decide_eq_true hw⟩
  have ⟨i, hi⟩ := List.mem_iff_getElem?.mp hf
  have hm : (messages us)[i]? = some u.message := by
    rw [messages, List.getElem?_map, hi]
    rfl
  have hlt : i < (messages us).length := (List.getElem?_eq_some_iff.mp hm).fst
  let v : View := ⟨u.message.length + 1, (messages us).length⟩
  have hh : (Graphics.draws 1 columns).fontHeight ≤ v.height := Nat.zero_lt_of_lt hlt
  obtain ⟨l, hl, hs⟩ := h _ columns v Graphics.draws_documented le_rfl hh
  have ht := Log.terminated_of_serve hl
  obtain ⟨l', hl', h'⟩ := (Log.init_displays hh).serve Graphics.draws_documented ht
  cases hl.symm.trans hl'
  have hlen : ((us.filter (·.IsWrite)).map Utcb.found).length = (messages us).length := by
    rw [messages, List.length_map, List.length_map]
  have hj : 1 ≤ (messages us).length - i := Nat.sub_pos_of_lt hlt
  have hle : ((messages us).length - i) * 1 ≤ v.height := (Nat.mul_one _).trans_le (Nat.sub_le ..)
  obtain ⟨text, htext, hs⟩ := hs _ hj (Nat.sub_le ..) hle
  obtain ⟨str, hstr, hs'⟩ := h'.lines _ hj (hlen ▸ Nat.sub_le ..) hle
  rw [Nat.sub_sub_self hlt.le, hm] at htext
  rw [List.nil_append, hlen, Nat.sub_sub_self hlt.le, List.getElem?_map, hi] at hstr
  cases htext
  cases hstr
  have hlen := hs.length_le hs' (length_visible.trans_lt <| Nat.lt_succ_self _)
  rw [length_visible, length_visible] at hlen
  exact Nat.not_le.mpr (Utcb.length_message_lt (ht u hu) hn) hlen

-- Requests to write with other characters behind their texts.
def writes : List (Utcb 16) :=
  [.leftovers [72, 105, 0] (by decide), .leftovers [9, 33, 0] (by decide),
    .leftovers [79, 75, 127, 0] (by decide)]

end LogServer
