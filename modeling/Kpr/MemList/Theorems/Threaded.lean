import Kpr.MemList.Theorems.Store
import Kpr.MemList.Represents
import Kpr.Lib.Ensures

open Machine Except

namespace MemList

variable {S : Set Nat} {s s' : Heap} {l k : ListId} {es es₁ es₂ : List Nat} {e r : Nat}

@[simp] theorem andAlso_ok {a b : Bool} : andAlso a (.ok b) = .ok (a && b) := by cases a <;> rfl

-- The statements behind an `if` are part of both branches.
theorem ite_bind {α β : Type} {c : Prop} [Decidable c] {x y : Except Fault α} {a : α}
    {f : α → Except Fault β} (h : (if c then x else y) = .ok a) :
    (if c then x >>= f else y >>= f) = f a := by
  split at h <;> simp_all

namespace Threaded

theorem congr (h : Threaded s l es) (hh : s'.head l = s.head l)
    (hw : ∀ p ∈ es, ∀ f, s'.word p f = s.word p f) : Threaded s' l es where
  head := hh.trans h.head
  ring := h.ring.congr (fun p hp => hw p hp .next) (fun p hp => hw p hp .prev)

theorem setHead (h : LinkRing s.next s.prev es) : Threaded (s.setHead l (es.headD NULL)) l es where
  head := Heap.setHead_head
  ring := by cases l <;> exact h

-- A list is not affected by changes to headers which are not on it.
theorem frame {T : Set Nat} (h : Threaded s l es) (hr : Touched S T s s')
    (hh : s'.head l = s.head l) (hs : ∀ p ∈ es, p ∈ S) (ht : ∀ p ∈ es, p ∉ T) : Threaded s' l es :=
  h.congr hh fun p hp => hr.word p (hs p hp) (ht p hp)

theorem head_eq_null_iff (h : Threaded s l es) (hS : Headers S) (hs : ∀ p ∈ es, p ∈ S) :
    s.head l = NULL ↔ es = [] := by
  cases es
  case nil => simp [h.head]
  case cons p es =>
    simp only [h.head, List.headD_cons, reduceCtorEq, iff_false]
    exact hS.ne_null p (hs p List.mem_cons_self)

end Threaded

namespace Heap

-- The first four writes of an insertion.
def linkedBefore (s : Heap) (e r : Nat) : Heap :=
  (((s.put e .next r).put e .prev (s.prev r)).put (s.prev r) .next e).put r .prev e

-- The six writes which exchange `e` and `r`, at the end of a list with head `h` where `e` is
-- preceded by `q`.
def exchanged (s : Heap) (e r q h : Nat) : Heap :=
  (((((s.put e .next h).put r .prev q).put h .prev e).put r .next e).put q .next r).put e .prev r

end Heap

namespace Headers

section

variable (hS : Headers S) (he : e ∈ S) (hr : r ∈ S) (hq : s.prev r ∈ S)
include hS he hr hq

theorem linkBefore_eq (_ : r ≠ e) (_ : s.prev r ≠ e) :
    linkBefore s e r = .ok (s.linkedBefore e r) := by
  simp [linkBefore, Heap.linkedBefore, hS.load_eq, hS.store_eq, hS.word_put, *]

theorem linkedBefore_next {p : Nat} (hp : p ∈ S) :
    (s.linkedBefore e r).next p = if p = s.prev r then e else if p = e then r else s.next p := by
  simp [Heap.linkedBefore, hS.word_put, *]

theorem linkedBefore_prev {p : Nat} (hp : p ∈ S) :
    (s.linkedBefore e r).prev p = if p = r then e else if p = e then s.prev r else s.prev p := by
  simp [Heap.linkedBefore, hS.word_put, *]

theorem linkedBefore_relinked {T : Set Nat} (h : {e, r, s.prev r} ⊆ T) :
    Relinked S T s (s.linkedBefore e r) := by
  have ⟨h₁, h₂, h₃⟩ : e ∈ T ∧ r ∈ T ∧ s.prev r ∈ T := by simpa [Set.insert_subset_iff] using h
  exact Relinked.refl |>.put hS he h₁ |>.put hS he h₁ |>.put hS hq h₃ |>.put hS hr h₂

end

section

variable {q h : Nat} (hS : Headers S) (he : e ∈ S) (hr : r ∈ S) (hq : q ∈ S) (hh : h ∈ S)
include hS he hr hq hh

theorem exchange_eq (h₁ : s.prev e = q) (h₂ : s.next r = h) (hr : r ≠ e) (hh : h ≠ e) :
    exchange s e r = .ok (s.exchanged e r q h) := by
  simp [exchange, Heap.exchanged, hS.load_eq, hS.store_eq, hS.word_put, *, hh.symm, hr.symm]

theorem exchanged_next {p : Nat} (hp : p ∈ S) : (s.exchanged e r q h).next p =
    if p = q then r else if p = r then e else if p = e then h else s.next p := by
  simp [Heap.exchanged, hS.word_put, *]

theorem exchanged_prev {p : Nat} (hp : p ∈ S) : (s.exchanged e r q h).prev p =
    if p = e then r else if p = h then e else if p = r then q else s.prev p := by
  simp [Heap.exchanged, hS.word_put, *]

theorem exchanged_relinked {T : Set Nat} (ht : {e, r, q, h} ⊆ T) :
    Relinked S T s (s.exchanged e r q h) := by
  have ⟨h₁, h₂, h₃, h₄⟩ : e ∈ T ∧ r ∈ T ∧ q ∈ T ∧ h ∈ T := by simpa [Set.insert_subset_iff] using ht
  exact Relinked.refl |>.put hS he h₁ |>.put hS hr h₂ |>.put hS hh h₄ |>.put hS hr h₂
    |>.put hS hq h₃ |>.put hS he h₁

end

end Headers

variable {passes before : Heap → Nat → Nat → Except Fault Bool} {p : Nat → Bool}

-- The runner stops at the first element which does not pass, or else at the last element.
theorem advance_spec (es₁ : List Nat) (hS : Headers S) (ht : Threaded s l (es₁ ++ r :: es₂))
    (hs : ∀ x ∈ es₁ ++ r :: es₂, x ∈ S) (hp : ∀ x ∈ es₁ ++ r :: es₂, passes s x e = .ok (p x))
    (h₁ : ∀ x ∈ es₁, p x) {n : Nat} (hf : es₂.length < n) :
    ∃ fs₁ q fs₂, es₁ ++ r :: es₂ = fs₁ ++ q :: fs₂ ∧ (∀ x ∈ fs₁, p x) ∧ (p q → fs₂ = []) ∧
      advance l passes s e n r = .ok q := by
  induction es₂ generalizing es₁ r n <;> cases n <;> try contradiction
  case nil.succ n =>
    have hn : s.next r = s.head l := by
      rw [ht.ring.next_last, ht.head]
      cases es₁ <;> rfl
    refine ⟨es₁, r, [], rfl, h₁, fun _ => rfl, ?_⟩
    simp [advance, hS.load_eq (hs r (by simp)), hn, hp r]
  case cons.succ c es₂ hi n =>
    have hn : s.next r = c := ht.ring.linked_of_append.left
    have hc : c ≠ s.head l := by
      have := ht.ring.nodup
      rw [ht.head]
      cases es₁ <;> grind
    have hr := hp r (by simp)
    by_cases hpr : p r
    case pos =>
      have e₁ : es₁ ++ r :: c :: es₂ = (es₁ ++ [r]) ++ c :: es₂ := by simp
      simp only [e₁] at ht hs hp ⊢
      have h₁' : ∀ x ∈ es₁ ++ [r], p x := by simpa [or_imp, forall_and] using ⟨h₁, hpr⟩
      have ⟨fs₁, q, fs₂, h, h₁, h₂, ha⟩ := hi _ ht hs hp h₁' (n := n) (by simpa using hf)
      refine ⟨fs₁, q, fs₂, h, h₁, h₂, ?_⟩
      simp [advance, hS.load_eq (hs r (by simp)), hn, hc, hr, hpr, ha]
    case neg =>
      refine ⟨es₁, r, c :: es₂, rfl, h₁, fun h => absurd h hpr, ?_⟩
      simp [advance, hS.load_eq (hs r (by simp)), hr, hpr]

section

variable (hS : Headers S) (ht : Threaded s l es) (hs : ∀ x ∈ es, x ∈ S) (he : e ∈ S) (hn : e ∉ es)
  (hr : r ∈ es)
include hS ht hs he hn hr

theorem linkedBefore_inserted :
    LinkRing.Inserted s.next s.prev (s.linkedBefore e r).next (s.linkedBefore e r).prev e r es := by
  have hpS := hs _ (ht.ring.prev_mem hr)
  have hre : r ≠ e := fun h => hn (h ▸ hr)
  have hpe : s.prev r ≠ e := fun h => hn (h ▸ ht.ring.prev_mem hr)
  have next p := hS.linkedBefore_next (p := p) he (hs r hr) hpS
  have prev p := hS.linkedBefore_prev (p := p) he (hs r hr) hpS
  constructor
  all_goals grind

-- If the runner is the last element, exchanging it with the new one leaves the new one behind it.
theorem exchanged_inserted (hp : s.prev r ≠ r) :
    LinkRing.Inserted s.next s.prev
      ((s.linkedBefore e r).exchanged e r (s.prev r) (s.next r)).next
      ((s.linkedBefore e r).exchanged e r (s.prev r) (s.next r)).prev e (s.next r) es := by
  have hrS := hs _ hr
  have hpS := hs _ (ht.ring.prev_mem hr)
  have hnS := hs _ (ht.ring.next_mem hr)
  have hre : r ≠ e := fun h => hn (h ▸ hr)
  have hpe : s.prev r ≠ e := fun h => hn (h ▸ ht.ring.prev_mem hr)
  have hne : s.next r ≠ e := fun h => hn (h ▸ ht.ring.next_mem hr)
  have hpn := ht.ring.prev_next hr
  have hnp := ht.ring.next_prev hr
  have hnr : s.next r ≠ r := fun h => hp (by rw [h] at hpn; exact hpn)
  have next p := hS.exchanged_next (s := s.linkedBefore e r) (p := p) he hrS hpS hnS
  have prev p := hS.exchanged_prev (s := s.linkedBefore e r) (p := p) he hrS hpS hnS
  have next' p := hS.linkedBefore_next (p := p) he hrS hpS
  have prev' p := hS.linkedBefore_prev (p := p) he hrS hpS
  constructor
  all_goals grind

-- After the first four writes, the runner can only be followed by the head if it has been so
-- before.
theorem linkedBefore_next_eq {h : Nat} (hh : h ∈ es) (hx : (s.linkedBefore e r).next r = h) :
    s.prev r ≠ r ∧ s.next r = h := by
  have hre : r ≠ e := fun h => hn (h ▸ hr)
  have hhe : h ≠ e := fun h => hn (h ▸ hh)
  rw [hS.linkedBefore_next he (hs r hr) (hs _ <| ht.ring.prev_mem hr) (hs r hr), if_neg hre] at hx
  grind

variable (ha : advance l passes s e loopBound (s.head l) = .ok r)
  (hp : ∀ t, Relinked S {x | x = e ∨ x ∈ es} s t → ∀ x ∈ es, passes t x e = .ok (p x))
  (hb : ∀ t, Relinked S {x | x = e ∨ x ∈ es} s t → ∀ x ∈ es, before t x e = .ok !(p x))

omit hn in
theorem linkedBefore_relinked_of_mem : Relinked S {x | x = e ∨ x ∈ es} s (s.linkedBefore e r) := by
  apply hS.linkedBefore_relinked he (hs r hr) (hs _ <| ht.ring.prev_mem hr)
  simp [Set.insert_subset_iff, hr, ht.ring.prev_mem hr]

include ha hp hb

-- The outcome of an insertion, in terms of the point at which the runner stops.
theorem insertInto_eq :
    insertInto l passes before s e =
      if r = s.head l ∧ ¬p r then .ok ((s.linkedBefore e r).setHead l e)
      else if (s.linkedBefore e r).next r = s.head l ∧ p r then
        .ok ((s.linkedBefore e r).exchanged e r (s.prev r) (s.next r))
      else .ok (s.linkedBefore e r) := by
  have hrS := hs r hr
  have hpS := hs _ (ht.ring.prev_mem hr)
  have hnS := hs _ (ht.ring.next_mem hr)
  have hre : r ≠ e := fun h => hn (h ▸ hr)
  have hpe : s.prev r ≠ e := fun h => hn (h ▸ ht.ring.prev_mem hr)
  have hne : s.next r ≠ e := fun h => hn (h ▸ ht.ring.next_mem hr)
  have hlink := hS.linkBefore_eq he hrS hpS hre hpe
  have hx := linkedBefore_relinked_of_mem hS ht hs he hr
  have hpr := hp _ hx r hr
  have hbr := hb _ hx r hr
  have hhead : (s.linkedBefore e r).head l = s.head l := by simp [Heap.linkedBefore]
  simp only [insertInto, ha, hlink, hbr, hpr, hhead, ok_bind, hS.load_eq hrS, andAlso_ok, pure_eq_ok,
    Bool.and_eq_true, decide_eq_true_eq, Bool.not_eq_true', Bool.not_eq_true]
  split_ifs with h₁ h₂ <;> try rfl
  -- The runner is the last element but not the only one.
  have hh : s.head l ∈ es := by
    cases es
    case nil       => contradiction
    case cons h es => simp [ht.head]
  have ⟨_, hnr⟩ := linkedBefore_next_eq hS ht hs he hn hr hh h₂.left
  have hprev : (s.linkedBefore e r).prev e = s.prev r := by
    simp [hS.linkedBefore_prev he hrS hpS he, hre.symm]
  exact hS.exchange_eq he hrS hpS hnS hprev (h₂.left.trans hnr.symm) hre hne

-- The runner stops in front of an element which does not pass.
theorem insertInto_before (hes : es = es₁ ++ r :: es₂) (hpr : ¬p r) :
    ∃ s', insertInto l passes before s e = .ok s' ∧ Relinked S {x | x = e ∨ x ∈ es} s s' ∧
      Threaded s' l (es₁ ++ e :: r :: es₂) ∧ ∀ k ≠ l, s'.head k = s.head k := by
  have hx := linkedBefore_relinked_of_mem hS ht hs he hr
  have hev := insertInto_eq hS ht hs he hn hr ha hp hb
  have hring : LinkRing (s.linkedBefore e r).next (s.linkedBefore e r).prev (es₁ ++ e :: r :: es₂) :=
    (hes ▸ ht.ring).insert_before (hes ▸ hn) (hes ▸ linkedBefore_inserted hS ht hs he hn hr)
  have hhead k : (s.linkedBefore e r).head k = s.head k := by simp [Heap.linkedBefore]
  have hhd := hes ▸ ht.head
  simp only [hpr, Bool.false_eq_true, and_false, if_false, not_false_eq_true, and_true] at hev
  cases es₁
  case nil =>
    refine ⟨_, hev.trans (if_pos hhd.symm), hx.trans Heap.setHead_relinked, .setHead hring, ?_⟩
    exact fun k hk => (Heap.setHead_head_ne hk).trans (hhead k)
  case cons h es₁ =>
    have hrh : r ≠ s.head l := by
      have hd := (List.nodup_append.mp (hes ▸ ht.ring.nodup)).right.right
      exact hhd ▸ (hd h (by simp) r (by simp)).symm
    refine ⟨_, hev.trans (if_neg hrh), hx, ⟨?_, hring⟩, fun k _ => hhead k⟩
    rw [hhead, hhd]
    rfl

-- The runner stops at the last element, which passes.
theorem insertInto_last (hes : es = es₁ ++ [r]) (hpr : p r) :
    ∃ s', insertInto l passes before s e = .ok s' ∧ Relinked S {x | x = e ∨ x ∈ es} s s' ∧
      Threaded s' l (es₁ ++ [r] ++ [e]) ∧ ∀ k ≠ l, s'.head k = s.head k := by
  have hx := linkedBefore_relinked_of_mem hS ht hs he hr
  have hi := linkedBefore_inserted hS ht hs he hn hr
  have hev := insertInto_eq hS ht hs he hn hr ha hp hb
  have hpS := hs _ (ht.ring.prev_mem hr)
  have hnS := hs _ (ht.ring.next_mem hr)
  have hre : r ≠ e := fun h => hn (h ▸ hr)
  have hnext := hS.linkedBefore_next he (hs r hr) hpS (hs r hr)
  have hhead k : (s.linkedBefore e r).head k = s.head k := by simp [Heap.linkedBefore]
  have hhd := hes ▸ ht.head
  have hnr := (hes ▸ ht.ring).next_last
  simp only [hpr, not_true_eq_false, and_false, if_false, and_true] at hev
  cases es₁
  case nil =>
    have ⟨hn₁, hp₁⟩ := LinkRing.singleton_iff.mp (hes ▸ ht.ring)
    have hne : (s.linkedBefore e r).next r ≠ s.head l := by
      rw [hnext, if_pos hp₁.symm, hhd]
      exact hre.symm
    have hring : LinkRing (s.linkedBefore e r).next (s.linkedBefore e r).prev ([] ++ [r] ++ [e]) :=
      (hes ▸ ht.ring).insert_last (hes ▸ hn) (by rw [hn₁]; exact hes ▸ hi)
    exact ⟨_, hev.trans (if_neg hne), hx, ⟨(hhead l).trans hhd, hring⟩, fun k _ => hhead k⟩
  case cons h es₁ =>
    have hpr : s.prev r ≠ r := (hes ▸ ht.ring).prev_ne (by simp)
    have hnh : (s.linkedBefore e r).next r = s.head l := by
      rw [hnext, if_neg hpr.symm, if_neg hre, hnr, hhd]
      rfl
    have hi := exchanged_inserted hS ht hs he hn hr hpr
    have hring := (hes ▸ ht.ring).insert_last (hes ▸ hn) (hes ▸ hi)
    refine ⟨_, hev.trans (if_pos hnh), hx.trans ?_, ⟨?_, hring⟩, fun k _ => ?_⟩
    · apply hS.exchanged_relinked he (hs r hr) hpS hnS
      simp [Set.insert_subset_iff, hr, ht.ring.prev_mem hr, ht.ring.next_mem hr]
    · simpa [Heap.exchanged, hhead] using hhd
    · simp [Heap.exchanged, hhead]

end

theorem insertInto_spec (hS : Headers S) (ht : Threaded s l es) (hne : es ≠ [])
    (hs : ∀ x ∈ es, x ∈ S) (he : e ∈ S) (hn : e ∉ es) (hl : es.length ≤ loopBound)
    (hp : ∀ t, Relinked S {x | x = e ∨ x ∈ es} s t → ∀ x ∈ es, passes t x e = .ok (p x))
    (hb : ∀ t, Relinked S {x | x = e ∨ x ∈ es} s t → ∀ x ∈ es, before t x e = .ok !(p x)) :
    ∃ s', insertInto l passes before s e = .ok s' ∧ Relinked S {x | x = e ∨ x ∈ es} s s' ∧
      Threaded s' l (es.takeWhile p ++ e :: es.dropWhile p) ∧ ∀ k ≠ l, s'.head k = s.head k := by
  have ⟨es₁, r, es₂, hes, h₁, h₂, ha⟩ : ∃ es₁ r es₂, es = es₁ ++ r :: es₂ ∧ (∀ x ∈ es₁, p x) ∧
      (p r → es₂ = []) ∧ advance l passes s e loopBound (s.head l) = .ok r := by
    cases es
    case nil => contradiction
    case cons h es =>
      simp only [ht.head, List.headD_cons]
      exact advance_spec [] hS ht hs (hp s .refl) (by simp) hl
  have hr : r ∈ es := by simp [hes]
  have htake : es.takeWhile p = es₁ ++ (r :: es₂).takeWhile p :=
    hes ▸ List.takeWhile_append_of_pos h₁
  have hdrop : es.dropWhile p = (r :: es₂).dropWhile p :=
    hes ▸ List.dropWhile_append_of_pos h₁
  rw [htake, hdrop]
  by_cases hpr : p r
  case neg => simpa [hpr] using insertInto_before hS ht hs he hn hr ha hp hb hes hpr
  case pos =>
    cases h₂ hpr
    simpa [hpr] using insertInto_last hS ht hs he hn hr ha hp hb hes hpr

end MemList
