import Kpr.MemBitmap.Theorems.Calls
import Mathlib.Data.List.Pairwise

open Machine

namespace MemBitmap

variable {s s' : Session} {c : Call} {cs : List Call} {a : Arena} {f : Nat → Bool}
  {b i j m n p q size : Nat} {mem : Memory} {bitmapAddr : Nat} {kernel : Nat → DataspaceReply}

instance : Std.Symm a.ApartAt :=
  ⟨fun _ _ => Apart.symm⟩

namespace Session

-- In addition, all live pointers are those of blocks in the region.
structure Consistent (s : Session) : Prop extends s.Exclusive where
  placed   : s.arena.startAddr = NULL ∧ s.live = [] ∨ s.arena.Placed
  pointers : ∀ p ∈ s.live, ∃ i < BITS, p = s.arena.pointer i

theorem boot_consistent : (boot mem bitmapAddr kernel).Consistent := by
  constructor
  case toExclusive => constructor <;> simp [boot, Arena.boot]
  case placed      => exact .inl ⟨rfl, rfl⟩
  case pointers    => exact nofun

namespace Consistent

theorem placed_of_mem (h : s.Consistent) (hp : p ∈ s.live) : s.arena.Placed :=
  h.placed.resolve_left fun ⟨_, hl⟩ => List.not_mem_nil (hl ▸ hp)

-- The pointers are those of the same blocks as long as the region is where it was.
theorem pointers_congr (h : s.Consistent) (hs : a.startAddr = s.arena.startAddr) (hp : p ∈ s.live) :
    ∃ i < BITS, p = a.pointer i := by
  obtain ⟨i, hi, hpi⟩ := h.pointers p hp
  exact ⟨i, hi, hpi.trans (Arena.pointer_congr hs).symm⟩

variable (h : s.Consistent) (ha : s.arena.Placed)
include h ha

theorem bit_of_pointer (hi : i < BITS) (hm : s.arena.pointer i ∈ s.live) : s.arena.bit i = true := by
  have hfirst := ha.first_pointer hi
  refine h.marked _ hm i (Nat.le_of_eq hfirst) ?_
  rw [Arena.fin, hfirst, Nat.add_assoc]
  exact Nat.lt_add_of_pos_right (Nat.add_pos_left Nat.one_pos _)

-- A new block is put where nothing is in use.
theorem allocated (hf : firstRun s.arena.bit (1 + size / PAGE_SIZE) BITS = some i)
    (hs : Allocated s.arena size i a) :
    Consistent { arena := a, live := s.arena.pointer i :: s.live } := by
  have ⟨hi, hclear, _⟩ := firstRun_eq_some_iff.mp hf
  have hpos : 0 < 1 + size / PAGE_SIZE := Nat.add_pos_left Nat.one_pos _
  have hlt : i < BITS := lt_of_block hi
  have hfirst p : a.first p = s.arena.first p := Arena.first_congr hs.startAddr
  have hnew : a.fin (s.arena.pointer i) = i + (1 + size / PAGE_SIZE) := by
    rw [Arena.fin, hfirst, ha.first_pointer hlt, ha.header_pointer hlt, hs.header, Nat.add_assoc]
  have hold {p} (hp : p ∈ s.live) : a.fin p = s.arena.fin p := by
    obtain ⟨j, hj, hpj⟩ := h.pointers p hp
    have hji : j ≠ i := by
      rintro rfl
      have hbit := h.bit_of_pointer ha hj (hpj ▸ hp)
      have hnone := hclear 0 hpos
      rw [Nat.add_zero, hbit] at hnone
      contradiction
    have hb {k} (hk : k < BITS) : k < 2 ^ 30 := hk.trans (by decide)
    apply Arena.fin_congr hs.startAddr
    rw [hpj, ha.header_pointer hj]
    exact hs.mem _ ((index_inj (hb hj) (hb hlt)).not.mpr hji) fun k hk => ha.index_ne hj hk
  have hbit {k} (hk : k < BITS) := hs.bit k (hk.trans (by decide))
  constructor
  case toExclusive =>
    constructor
    case inBounds => exact hs.outOfBounds.trans h.inBounds
    case apart =>
      apply List.pairwise_cons.mpr
      constructor
      case left =>
        intro p hp
        obtain ⟨j, hj, hpj⟩ := h.pointers p hp
        simp only [Arena.ApartAt, hnew, hfirst, hold hp, ha.first_pointer hlt]
        refine hclear.apart (h.marked p hp) hpos ?_
        rw [Arena.fin, Nat.add_assoc]
        exact Nat.lt_add_of_pos_right (Nat.add_pos_left Nat.one_pos _)
      case right =>
        refine h.apart.imp_of_mem fun hp hq hpq => ?_
        simpa only [Arena.ApartAt, hfirst, hold hp, hold hq] using hpq
    case within =>
      intro p hp
      cases List.mem_cons.mp hp
      case inl hp =>
        rw [hp]
        exact (Nat.le_of_eq hnew).trans hi
      case inr hp => exact (Nat.le_of_eq (hold hp)).trans (h.within p hp)
    case marked =>
      intro p hp k hk hk'
      cases List.mem_cons.mp hp
      case inl hp =>
        rw [hp, hfirst, ha.first_pointer hlt] at hk
        rw [hp, hnew] at hk'
        have hik : i ≤ k ∧ k < i + 1 + size / PAGE_SIZE := ⟨hk, by omega⟩
        rw [hbit (Nat.lt_of_lt_of_le hk' hi), decide_eq_true hik, Bool.true_or]
      case inr hp =>
        rw [hfirst] at hk
        rw [hold hp] at hk'
        rw [hbit (Nat.lt_of_lt_of_le hk' <| h.within p hp), h.marked p hp k hk hk', Bool.or_true]
  case placed => exact .inr <| ha.congr hs.startAddr hs.bitmapAddr
  case pointers =>
    intro p hp
    cases List.mem_cons.mp hp
    case inl hp => exact ⟨i, hlt, hp.trans (Arena.pointer_congr hs.startAddr).symm⟩
    case inr hp => exact h.pointers_congr hs.startAddr hp

omit ha in
-- Nothing happens to the other blocks if the bitmap is left as it is.
theorem erased : Consistent { arena := s.arena, live := s.live.erase p } := by
  have hsub {q} (hq : q ∈ s.live.erase p) : q ∈ s.live := List.mem_of_mem_erase hq
  constructor
  case toExclusive =>
    constructor
    case inBounds => exact h.inBounds
    case apart    => exact h.apart.sublist List.erase_sublist
    case within   => exact fun q hq => h.within q (hsub hq)
    case marked   => exact fun q hq => h.marked q (hsub hq)
  case pointers => exact fun q hq => h.pointers q (hsub hq)
  case placed   => exact h.placed.imp_left fun ⟨h₁, h₂⟩ => ⟨h₁, by rw [h₂]; rfl⟩

omit ha in
-- Blocks are not empty, thus those at different positions in the list are different.
theorem nodup : s.live.Nodup := by
  refine h.apart.imp fun {p q} hpq => ?_
  rintro rfl
  simp only [Arena.ApartAt, Apart, Arena.fin, PAGE_SIZE] at hpq
  omega

-- From the very first block, fewer bits are cleared than it has.
theorem freed (hm : p ∈ s.live) (hp : s.arena.Accepts p) (h₀ : s.arena.first p = 0) :
    Consistent { arena := free s.arena p, live := s.live.erase p } := by
  have ⟨i, hi, hpi⟩ := h.pointers p hm
  have hi₀ : i = 0 := by rw [← ha.first_pointer hi, ← hpi, h₀]
  have hbit₀ : Word.ptrDiff s.arena.startAddr (Arena.header p) = 0 := by
    rw [hpi, ha.ptrDiff_pointer hi, hi₀]
    rfl
  have hfin : s.arena.mem (Arena.header p) / 32 + 1 ≤ s.arena.fin p := by
    simp only [Arena.fin, PAGE_SIZE]
    omega
  have hfit : 0 + (s.arena.mem (Arena.header p) / 32 + 1) ≤ 32 * BMP_SIZE := by
    have := h.within p hm
    simp only [BMP_SIZE, BITS, MEM_SIZE, PAGE_SIZE] at *
    omega
  have hs := clearForth_rewritten hfit (s := s.arena)
  rw [free_eq hp, hbit₀]
  generalize clearForth .. = a at hs
  have hfirst q : a.first q = s.arena.first q := Arena.first_congr hs.startAddr
  have hsub {q} (hq : q ∈ s.live.erase p) : q ∈ s.live := List.mem_of_mem_erase hq
  have hold {q} (hq : q ∈ s.live) : a.fin q = s.arena.fin q := by
    have ⟨j, hj, hqj⟩ := h.pointers q hq
    apply Arena.fin_congr hs.startAddr
    rw [hqj, ha.header_pointer hj]
    exact hs.mem _ fun k hk => ha.index_ne hj hk
  constructor
  case toExclusive =>
    constructor
    case inBounds => exact hs.outOfBounds.trans h.inBounds
    case apart =>
      refine (h.apart.sublist List.erase_sublist).imp_of_mem fun hq hr hqr => ?_
      simpa only [Arena.ApartAt, hfirst, hold (hsub hq), hold (hsub hr)] using hqr
    case within => exact fun q hq => (Nat.le_of_eq (hold (hsub hq))).trans (h.within q (hsub hq))
    case marked =>
      intro q hq k hk hk'
      rw [hfirst] at hk
      rw [hold (hsub hq)] at hk'
      have hpq : p ≠ q := fun e => h.nodup.not_mem_erase (e ▸ hq)
      have hapart : Apart .. := h.apart.forall hm (hsub hq) hpq
      have hbk : k < 0 ∨ 0 + (s.arena.mem (Arena.header p) / 32 + 1) ≤ k := by
        simp only [Apart] at hapart
        omega
      have hk := hk'.trans_le (h.within q (hsub hq))
      rw [hs.bit k (hk.trans (by decide)), decide_eq_true hbk, Bool.true_and]
      exact h.marked q (hsub hq) k ‹_› hk'
  case pointers => exact fun q hq => h.pointers_congr hs.startAddr (hsub hq)
  case placed => exact .inr <| ha.congr hs.startAddr hs.bitmapAddr

-- All other blocks lead to an index beyond the end of the bitmap.
theorem escaped (hm : p ∈ s.live) (hp : s.arena.Accepts p) (h₀ : s.arena.first p ≠ 0) :
    (free s.arena p).outOfBounds = true := by
  have ⟨i, hi, hpi⟩ := h.pointers p hm
  have hi₀ : i ≠ 0 := by rwa [← ha.first_pointer hi, ← hpi]
  rw [free_eq hp, hpi, ha.ptrDiff_pointer hi, clearForth]
  apply clearForth_outOfBounds
  apply clearBit_outOfBounds
  simp only [BMP_SIZE, BITS, MEM_SIZE, PAGE_SIZE] at *
  omega

end Consistent
-- An arena in which nothing is in use can be given to the first call which finds it.
theorem Consistent.initialised (h : s.Consistent) (hi : Initialised s.arena a) (ha : a.Placed) :
    Consistent { arena := a, live := [] } := by
  constructor
  case toExclusive =>
    constructor
    case inBounds => exact hi.outOfBounds.trans h.inBounds
    case apart    => exact .nil
    case within   => exact nofun
    case marked   => exact nofun
  case pointers => exact nofun
  case placed   => exact .inr ha

-- Behind its initialisation, `malloc` has no effect on the blocks which are live already.
theorem Consistent.malloc (h : s.Consistent) (ha : s.arena.Placed) (hn : n < 2 ^ 32 - 4) :
    Consistent {
      arena := (allocate s.arena (alignSize n)).snd
      live  := if (allocate s.arena (alignSize n)).fst = NULL then s.live
        else (allocate s.arena (alignSize n)).fst :: s.live } := by
  cases hf : firstRun s.arena.bit (1 + alignSize n / PAGE_SIZE) BITS
  case none   => simpa only [allocate_none hf, if_true] using h
  case some i =>
    have ⟨a, he, hs⟩ := allocate_allocated ha (le_alignSize hn) hf
    simp only [he, if_neg ha.pointer_ne_null]
    exact h.allocated ha hf hs

end Session

namespace Transition

variable (h : s.Consistent) (ht : Transition s c s')
include h ht

theorem consistent (hg : s.FreesFirst c) : s'.Consistent := by
  have ⟨hc, hr, hp⟩ := ht
  subst hr
  cases c
  case malloc n =>
    by_cases hs : s.arena.startAddr = NULL
    case neg =>
      have ha := h.placed.resolve_left fun ⟨hn, _⟩ => hs hn
      simp only [step, malloc_ready hs]
      exact h.malloc ha hc
    case pos =>
      have hl := (h.placed.resolve_right fun ha => ha.ne_null hs).right
      have he := malloc_init hs hp.ne_null
      have hi := init_initialised (s := s.arena)
      simp only [step, he, hl] at hp ⊢
      generalize (init s.arena).snd = a at *
      have ha := allocate_placed.mp hp
      exact (h.initialised hi ha).malloc ha hc
  case free p =>
    have ha := h.placed_of_mem hc
    by_cases hp : s.arena.Accepts p
    case pos => exact h.freed ha hc hp (hg hp)
    case neg =>
      simp only [step, free_rejected hp]
      exact h.erased

theorem exclusive_iff : s'.Exclusive ↔ s.FreesFirst c := by
  constructor
  case mpr => exact fun hg => (ht.consistent h hg).toExclusive
  case mp =>
    have ⟨hc, hr, hp⟩ := ht
    subst hr
    intro he
    cases c
    case malloc n => trivial
    case free p =>
      have ha := h.placed_of_mem hc
      intro hp
      apply Decidable.byContradiction
      intro h₀
      have hb : (free s.arena p).outOfBounds = false := he.inBounds
      rw [h.escaped ha hc hp h₀] at hb
      contradiction

end Transition

-- No word is handed out twice in exactly those runs in which only the very first block is freed, or
-- the pointers to be freed are rejected.
theorem exclusive_iff_freesFirst :
    Run (Guarded Session.FreesFirst Transition) (.boot mem bitmapAddr kernel) cs s ↔
      Run (Reaching Session.Exclusive Transition) (.boot mem bitmapAddr kernel) cs s :=
  Run.guarded_iff Session.boot_consistent (fun h ht => ht.exclusive_iff h)
    fun h ht he => ht.consistent h <| (ht.exclusive_iff h).mp he

-- A session with memory which is zero, after it has obtained its region below the bitmap.
def Session.zeroed : Session where
  arena := { Arena.boot (fun _ => 0) (2 ^ 20) fun _ => .granted (2 ^ 16) with
    startAddr := 2 ^ 16
    inits     := 1 }
  live  := []

theorem step_zeroed : step (.boot (fun _ => 0) (2 ^ 20) fun _ => .granted (2 ^ 16)) (.malloc n) =
    step .zeroed (.malloc n) := by
  have hz : (Arena.boot (fun _ => 0) (2 ^ 20) fun _ => .granted (2 ^ 16)).startAddr = NULL := rfl
  have hinit : init (.boot (fun _ => 0) (2 ^ 20) fun _ => .granted (2 ^ 16)) =
      (1, Session.zeroed.arena) := by
    rw [init, initBitmap_zero (fun _ => rfl) (Nat.le_of_eq (Nat.zero_add _))]
    rfl
  have he : malloc (.boot (fun _ => 0) (2 ^ 20) fun _ => .granted (2 ^ 16)) n =
      malloc Session.zeroed.arena n := by
    rw [malloc, if_pos hz, hinit, malloc_ready (by decide)]
    rfl
  simp only [step, Session.boot, he]
  rfl

-- The second of two blocks is freed.
theorem bitmap_left : ¬∀ mem bitmapAddr kernel cs s,
    Run Transition (.boot mem bitmapAddr kernel) cs s → s.Exclusive := by
  intro h
  have h₁ : Transition (.boot (fun _ => 0) (2 ^ 20) fun _ => .granted (2 ^ 16)) (.malloc 4)
      (step .zeroed (.malloc 4)) := ⟨by decide, step_zeroed.symm, by decide +kernel⟩
  have h₂ : Transition (step .zeroed (.malloc 4)) (.malloc 4)
      (step (step .zeroed (.malloc 4)) (.malloc 4)) := ⟨by decide, rfl, by decide +kernel⟩
  have h₃ : Transition (step (step .zeroed (.malloc 4)) (.malloc 4)) (.free 65548)
      (step (step (step .zeroed (.malloc 4)) (.malloc 4)) (.free 65548)) :=
    ⟨by decide +kernel, rfl, by decide +kernel⟩
  have hr := h _ _ _ _ _ (((Run.refl.snoc h₁).snoc h₂).snoc h₃)
  exact absurd hr.inBounds (by decide +kernel)

end MemBitmap
