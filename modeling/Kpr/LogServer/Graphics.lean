import Mathlib.Logic.Basic

namespace LogServer

abbrev Byte := BitVec 8

abbrev Color := BitVec 32

-- The pixels of the framebuffer by column and row.
abbrev Screen := Nat → Nat → Color

structure View where
  width  : Nat
  height : Nat

-- What is used of libgfxbitmap. The functions take the framebuffer as it is before the call and
-- return it as it is afterwards.
structure Graphics where
  fontHeight   : Nat
  convertColor : View → (color : Nat) → Color
  copy         : View → Screen → (x y w h dx dy : Nat) → Screen
  fill         : View → Screen → (x y w h : Nat) → Color → Screen
  fontText     : View → Screen → (text : List Byte) → (x y : Nat) → (fg bg : Color) → Screen

-- What a line of text looks like: the color of the pixel in the given column and row of the line, or
-- `none` if the text does not extend that far.
abbrev Glyphs := List Byte → (fg bg : Color) → (x y : Nat) → Option Color

-- What is known about these functions. All of them only access pixels of the view.
structure Graphics.Documented (g : Graphics) (glyphs : Glyphs) : Prop where
  copy : ∀ v fb x y w h dx dy, ∀ a < v.width, ∀ b < v.height,
    g.copy v fb x y w h dx dy a b =
      if dx ≤ a ∧ a < dx + w ∧ dy ≤ b ∧ b < dy + h ∧
          x + (a - dx) < v.width ∧ y + (b - dy) < v.height then
        fb (x + (a - dx)) (y + (b - dy))
      else
        fb a b
  fill : ∀ v fb x y w h color, ∀ a < v.width, ∀ b < v.height,
    g.fill v fb x y w h color a b =
      if x ≤ a ∧ a < x + w ∧ y ≤ b ∧ b < y + h then color else fb a b
  fontText : ∀ v fb text x y fg bg, ∀ a < v.width, ∀ b < v.height,
    g.fontText v fb text x y fg bg a b =
      if x ≤ a ∧ y ≤ b ∧ b < y + g.fontHeight then
        (glyphs text fg bg (a - x) (b - y)).getD (fb a b)
      else
        fb a b

-- A library which does nothing but what is documented.
def Graphics.draws (fontHeight : Nat) (glyphs : Glyphs) : Graphics where
  fontHeight     := fontHeight
  convertColor _ := .ofNat 32
  copy v fb x y w h dx dy a b :=
    if dx ≤ a ∧ a < dx + w ∧ dy ≤ b ∧ b < dy + h ∧
        x + (a - dx) < v.width ∧ y + (b - dy) < v.height then
      fb (x + (a - dx)) (y + (b - dy))
    else
      fb a b
  fill _ fb x y w h color a b :=
    if x ≤ a ∧ a < x + w ∧ y ≤ b ∧ b < y + h then color else fb a b
  fontText _ fb text x y fg bg a b :=
    if x ≤ a ∧ y ≤ b ∧ b < y + fontHeight then
      (glyphs text fg bg (a - x) (b - y)).getD (fb a b)
    else
      fb a b

theorem Graphics.draws_documented {h : Nat} {glyphs : Glyphs} :
    (Graphics.draws h glyphs).Documented glyphs where
  copy _ _ _ _ _ _ _ _ _ _ _ _     := rfl
  fill _ _ _ _ _ _ _ _ _ _ _       := rfl
  fontText _ _ _ _ _ _ _ _ _ _ _   := rfl

-- Solid blocks stand for all characters but spaces.
def blocks : Glyphs :=
  fun text fg bg a _ => text[a / 8]?.map fun c => if c = 32 then bg else fg

def Graphics.blocks : Graphics :=
  .draws 16 LogServer.blocks

-- Each character is a column of pixels.
def columns : Glyphs :=
  fun text _ _ a _ => if a < text.length then some 1 else none

end LogServer
