import Kpr.MemList.Alloc
import Mathlib.Data.Set.Insert

open Machine

namespace MemList

-- Places at which headers can be read and written independently of each other.
structure Headers (S : Set Nat) : Prop where
  ne_null : ∀ p ∈ S, p ≠ NULL
  below   : ∀ p ∈ S, p + sizeofDmemElem ≤ 2 ^ 32
  apart   : ∀ p ∈ S, ∀ q ∈ S, p ≠ q → Apart p (p + sizeofDmemElem) q (q + sizeofDmemElem)

-- As far as the headers `S` are concerned, the heap `s'` differs from `s` in those in `T` at most.
structure Touched (S T : Set Nat) (s s' : Heap) : Prop where
  word    : ∀ p ∈ S, p ∉ T → ∀ f, s'.word p f = s.word p f
  kernel  : s'.kernel = s.kernel
  regions : s'.regions = s.regions
  wrapped : s'.wrapped = s.wrapped
  written : ∀ p ∈ s'.written, p ∈ s.written ∨ p ∈ T

-- Moreover, only links differ.
structure Relinked (S T : Set Nat) (s s' : Heap) : Prop extends Touched S T s s' where
  size : ∀ p ∈ S, s'.word p .size = s.word p .size

section

variable {S T T' : Set Nat} {s s' s'' : Heap}

theorem Touched.refl : Touched S T s s where
  word _ _ _ _ := rfl
  kernel       := rfl
  regions      := rfl
  wrapped      := rfl
  written _    := .inl

theorem Touched.trans (h : Touched S T s s') (h' : Touched S T s' s'') : Touched S T s s'' where
  word p hp ht f := (h'.word p hp ht f).trans (h.word p hp ht f)
  kernel         := h'.kernel.trans h.kernel
  regions        := h'.regions.trans h.regions
  wrapped        := h'.wrapped.trans h.wrapped
  written p hp   := (h'.written p hp).elim (h.written p) .inr

theorem Touched.mono (h : Touched S T s s') (ht : T ⊆ T') : Touched S T' s s' :=
  { h with
    word    := fun p hp hn => h.word p hp (hn <| ht ·)
    written := fun p hp => (h.written p hp).imp_right (ht ·) }

theorem Relinked.refl : Relinked S T s s :=
  { Touched.refl with size := fun _ _ => rfl }

theorem Relinked.trans (h : Relinked S T s s') (h' : Relinked S T s' s'') : Relinked S T s s'' :=
  { h.toTouched.trans h'.toTouched with
    size := fun p hp => (h'.size p hp).trans (h.size p hp) }

end

namespace Heap

variable {s : Heap} {l l' : ListId} {p q v : Nat} {f g : Field}

@[simp] theorem put_head : (s.put p f v).head l = s.head l := by cases l <;> rfl
@[simp] theorem put_kernel : (s.put p f v).kernel = s.kernel := rfl
@[simp] theorem put_regions : (s.put p f v).regions = s.regions := rfl
@[simp] theorem put_wrapped : (s.put p f v).wrapped = s.wrapped := rfl
@[simp] theorem put_written : (s.put p f v).written = p :: s.written := rfl

@[simp] theorem setHead_word : (s.setHead l v).word p f = s.word p f := by cases l <;> rfl
@[simp] theorem setHead_kernel : (s.setHead l v).kernel = s.kernel := by cases l <;> rfl
@[simp] theorem setHead_regions : (s.setHead l v).regions = s.regions := by cases l <;> rfl
@[simp] theorem setHead_wrapped : (s.setHead l v).wrapped = s.wrapped := by cases l <;> rfl
@[simp] theorem setHead_written : (s.setHead l v).written = s.written := by cases l <;> rfl
@[simp] theorem setHead_head : (s.setHead l v).head l = v := by cases l <;> rfl

theorem setHead_head_ne (h : l' ≠ l) : (s.setHead l v).head l' = s.head l' := by
  cases l <;> cases l' <;> first | rfl | exact absurd rfl h

theorem setHead_relinked {S T : Set Nat} : Relinked S T s (s.setHead l v) where
  word _ _ _ _ := setHead_word
  size _ _     := setHead_word
  kernel       := setHead_kernel
  regions      := setHead_regions
  wrapped      := setHead_wrapped
  written _ h  := .inl (setHead_written ▸ h)

end Heap

namespace Headers

variable {S : Set Nat} {s : Heap} {p q v : Nat} {f g : Field}

theorem fieldAddr_eq (h : Headers S) (hp : p ∈ S) (f : Field) :
    Word.add p f.offset = p + f.offset := by
  have := h.below p hp
  apply Word.add_of_lt
  cases f <;> simp only [sizeofDmemElem, Field.offset] at * <;> omega

theorem fieldAddr_inj (h : Headers S) (hp : p ∈ S) (hq : q ∈ S) :
    Word.add q g.offset = Word.add p f.offset ↔ q = p ∧ g = f := by
  rw [h.fieldAddr_eq hp, h.fieldAddr_eq hq]
  constructor
  case mpr => rintro ⟨rfl, rfl⟩; rfl
  case mp =>
    intro e
    by_cases hqp : q = p
    case pos => cases f <;> cases g <;> simp_all [Field.offset]
    case neg =>
      have := h.apart q hq p hp hqp
      cases f <;> cases g <;> simp only [Apart, sizeofDmemElem, Field.offset] at * <;> omega

-- Reading back a header field after a write to some header.
theorem word_put (h : Headers S) (hp : p ∈ S) (hq : q ∈ S) :
    (s.put p f v).word q g = if q = p ∧ g = f then v else s.word q g := by
  simp only [Heap.put, Heap.word, Function.update_apply, h.fieldAddr_inj hp hq]

theorem put_touched {T : Set Nat} (h : Headers S) (hp : p ∈ S) (ht : p ∈ T) :
    Touched S T s (s.put p f v) where
  word q hq hn g := by
    have hqp : q ≠ p := fun e => hn (e ▸ ht)
    simp [h.word_put hp hq, hqp]
  kernel         := rfl
  regions        := rfl
  wrapped        := rfl
  written q hq   := by
    cases List.mem_cons.mp hq
    case inl hq => exact .inr (hq ▸ ht)
    case inr hq => exact .inl hq

theorem load_eq (h : Headers S) (hp : p ∈ S) : s.load p f = .ok (s.word p f) :=
  if_neg (h.ne_null p hp)

theorem store_eq (h : Headers S) (hp : p ∈ S) : s.store p f v = .ok (s.put p f v) :=
  if_neg (h.ne_null p hp)

end Headers

section

variable {S T : Set Nat} {s s' : Heap} {p v : Nat} {f : Field}

theorem Touched.put (h : Touched S T s s') (hS : Headers S) (hp : p ∈ S) (ht : p ∈ T) :
    Touched S T s (s'.put p f v) :=
  h.trans (hS.put_touched hp ht)

theorem Relinked.put (h : Relinked S T s s') (hS : Headers S) (hp : p ∈ S) (ht : p ∈ T)
    (hf : f ≠ .size := by exact (nomatch ·)) : Relinked S T s (s'.put p f v) :=
  { h.toTouched.put hS hp ht with
    size := fun q hq => by simp [hS.word_put hp hq, hf.symm, h.size q hq] }

end

end MemList
