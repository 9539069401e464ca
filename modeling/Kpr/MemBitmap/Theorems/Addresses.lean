import Kpr.MemBitmap.Theorems.Exclusive

open Machine

namespace MemBitmap

variable {s s' : Session} {a : Arena} {c : Call} {cs : List Call} {b i n p size : Nat}
  {mem : Memory} {bitmapAddr : Nat} {kernel : Nat → DataspaceReply}

-- What is assumed of all regions which the kernel grants.
def Grants (bitmapAddr : Nat) (kernel : Nat → DataspaceReply) : Prop :=
  ∀ i, (kernel i).capValid = true → (kernel i).allocErr = 0 → (kernel i).attachErr = 0 →
    ∀ a : Arena, a.bitmapAddr = bitmapAddr → a.startAddr = (kernel i).addr → a.Placed

-- Sizes and addresses are words, and apart from that clients may call what they like.
def Call.InRange : Call → Prop
  | .malloc size => size < 2 ^ 32
  | .free addr   => addr < 2 ^ 32

inductive Calls (s : Session) (c : Call) : Session → Prop
  | called (h : c.InRange) : Calls s c (step s c)

-- What the address test of `free` is for.
structure Session.Screens (s : Session) : Prop where
  accepts : ∀ p ∈ s.live, s.arena.Accepts p
  rejects : ∀ addr < 2 ^ 32, addr < s.arena.startAddr + PAGE_SIZE ∨
    s.arena.startAddr + PAGE_SIZE * BITS ≤ addr →
      ¬s.arena.Accepts addr ∧ free s.arena addr = s.arena

-- How the region and the bitmap are placed relative to each other.
def Arena.Below (a : Arena) : Prop :=
  a.startAddr + MEM_SIZE ≤ a.bitmapAddr

def Arena.Above (a : Arena) : Prop :=
  a.bitmapAddr + 4 * BMP_SIZE ≤ a.startAddr

namespace Arena

-- Where the region and the bitmap are, and what is known of the kernel, is not changed by loops.
theorem clearForth_same : ∃ m o, clearForth a n b = { a with mem := m, outOfBounds := o } := by
  induction n generalizing a b
  case zero      => exact ⟨_, _, rfl⟩
  case succ n hi =>
    have ⟨m, o, he⟩ := hi (a := a.clearBit b) (b := Word.add b 1)
    exact ⟨m, o, he⟩

theorem free_same : ∃ m o, free a p = { a with mem := m, outOfBounds := o } := by
  by_cases h : a.Accepts p
  case pos => rw [free_eq h]; exact clearForth_same
  case neg => exact ⟨_, _, free_rejected h⟩

end Arena

-- Whatever is requested, the pointers which are returned are those of words in the region.
theorem allocate_pointer (h : a.Placed) (hp : (allocate a size).fst ≠ NULL) :
    ∃ i < BITS, (allocate a size).fst = a.pointer i := by
  cases hf : firstRun a.bit (1 + size / PAGE_SIZE) BITS
  case none =>
    rw [allocate_none hf] at hp
    exact absurd rfl hp
  case some i =>
    have ⟨t, _, he⟩ := allocate_some hf
    have hi : i < BITS := lt_of_block (firstRun_eq_some_iff.mp hf).left
    rw [he] at hp ⊢
    refine ⟨i, hi, ?_⟩
    have := h.region
    rw [h.index_startAddr hi] at hp ⊢
    simp only [Word.index, Arena.pointer, NULL, BITS, MEM_SIZE, PAGE_SIZE] at *
    omega

theorem allocate_same (a : Arena) (size : Nat) : (allocate a size).snd.startAddr = a.startAddr ∧
    (allocate a size).snd.bitmapAddr = a.bitmapAddr ∧ (allocate a size).snd.kernel = a.kernel := by
  cases hf : firstRun a.bit (1 + size / PAGE_SIZE) BITS
  case none => rw [allocate_none hf]; exact ⟨rfl, rfl, rfl⟩
  case some i =>
    have ⟨t, ht, he⟩ := allocate_some hf
    rw [he]
    exact ⟨ht.startAddr, ht.bitmapAddr, ht.kernel⟩

-- A region is only obtained from a reply which grants one.
theorem allocMem_granted (h : (allocMem a).fst ≠ NULL) :
    (a.kernel a.inits).capValid = true ∧ (a.kernel a.inits).allocErr = 0 ∧
      (a.kernel a.inits).attachErr = 0 ∧ (allocMem a).snd.startAddr = (a.kernel a.inits).addr := by
  simp only [allocMem] at *
  split at h
  · contradiction
  split at h
  · contradiction
  split at h
  · contradiction
  · simp_all

theorem init_same : (init a).snd.bitmapAddr = a.bitmapAddr ∧ (init a).snd.kernel = a.kernel := by
  have hb := initBitmap_all (s := a)
  rw [init]
  generalize initBitmap a BMP_SIZE 0 = t at *
  rw [allocMem_snd]
  exact ⟨hb.bitmapAddr, hb.kernel⟩

theorem init_placed (hk : Grants a.bitmapAddr a.kernel) (h : (init a).fst ≠ NULL) :
    (init a).snd.Placed := by
  have hs := init_same (a := a)
  have hb := initBitmap_all (s := a)
  rw [init] at *
  generalize initBitmap a BMP_SIZE 0 = t at *
  obtain ⟨h₁, h₂, h₃, h₄⟩ := allocMem_granted h
  rw [hb.kernel] at h₁ h₂ h₃ h₄
  exact hk _ h₁ h₂ h₃ _ hs.left h₄

namespace Session

-- What holds of the pointers which are live, whatever clients do.
structure Served (bitmapAddr : Nat) (kernel : Nat → DataspaceReply) (s : Session) : Prop where
  bitmapAddr : s.arena.bitmapAddr = bitmapAddr
  kernel     : s.arena.kernel = kernel
  placed     : s.arena.startAddr = NULL ∧ s.live = [] ∨ s.arena.Placed
  pointers   : ∀ p ∈ s.live, ∃ i < BITS, p = s.arena.pointer i

namespace Served

variable (h : s.Served bitmapAddr kernel)
include h

theorem allocate (ha : s.arena.Placed) : Served bitmapAddr kernel {
    arena := (allocate s.arena n).snd
    live  := if (allocate s.arena n).fst = NULL then s.live else (allocate s.arena n).fst :: s.live
    } := by
  have ⟨hs, hb, hk⟩ := allocate_same s.arena n
  constructor
  case bitmapAddr => exact hb.trans h.bitmapAddr
  case kernel     => exact hk.trans h.kernel
  case placed     => exact .inr <| ha.congr hs hb
  case pointers   =>
    simp only [Arena.pointer_congr hs]
    split
    case isTrue      => exact h.pointers
    case isFalse hne =>
      intro p hp
      cases List.mem_cons.mp hp
      case inl hp => exact hp ▸ allocate_pointer ha hne
      case inr hp => exact h.pointers p hp

theorem malloc (hk : Grants bitmapAddr kernel) : (step s (.malloc n)).Served bitmapAddr kernel := by
  by_cases hs : s.arena.startAddr = NULL
  case neg =>
    have ha := h.placed.resolve_left fun ⟨hn, _⟩ => hs hn
    simp only [step, malloc_ready hs]
    exact h.allocate ha
  case pos =>
    have hl := (h.placed.resolve_right fun ha => ha.ne_null hs).right
    obtain ⟨hb, hk'⟩ := init_same (a := s.arena)
    have hp := init_placed (a := s.arena) (h.bitmapAddr ▸ h.kernel ▸ hk)
    have hf := init_failed (s := s.arena)
    simp only [step, MemBitmap.malloc, if_pos hs, hl]
    generalize init s.arena = x at *
    by_cases hx : x.fst = NULL
    case pos =>
      simp only [if_pos hx, if_true]
      exact ⟨hb.trans h.bitmapAddr, hk'.trans h.kernel, .inl ⟨(hf hx).trans hs, rfl⟩,
        List.forall_mem_nil _⟩
    case neg =>
      simp only [if_neg hx]
      have hx' : Served bitmapAddr kernel { arena := x.snd, live := [] } :=
        ⟨hb.trans h.bitmapAddr, hk'.trans h.kernel, .inr (hp hx), List.forall_mem_nil _⟩
      exact hx'.allocate (hp hx)

theorem free : (step s (.free p)).Served bitmapAddr kernel := by
  have ⟨m, o, he⟩ := Arena.free_same (a := s.arena) (p := p)
  simp only [step, he]
  constructor
  case bitmapAddr => exact h.bitmapAddr
  case kernel     => exact h.kernel
  case placed     =>
    apply h.placed.imp
    case f =>
      rintro ⟨hs, hl⟩
      exact ⟨hs, by rw [hl]; rfl⟩
    case g => exact fun ha => ha.congr rfl rfl
  case pointers   => exact fun q hq => h.pointers q <| List.mem_of_mem_erase hq

end Served

theorem served_of_run (hk : Grants bitmapAddr kernel)
    (h : Run Calls (boot mem bitmapAddr kernel) cs s) : s.Served bitmapAddr kernel := by
  apply h.invariant
  case h₀ => exact ⟨rfl, rfl, .inl ⟨rfl, rfl⟩, nofun⟩
  case hp =>
    intro s c s' hs ⟨_⟩
    cases c
    case malloc n => exact hs.malloc hk
    case free p   => exact hs.free

end Session

namespace Arena.Placed

variable (h : a.Placed)
include h

theorem accepts_iff : a.Accepts p ↔ a.startAddr ≤ p ∧ p + 4 ≤ a.bitmapAddr + 4 * BMP_SIZE := by
  rw [Accepts, h.index_bitmapAddr (by decide)]
  simp only [BMP_SIZE, BITS, MEM_SIZE, PAGE_SIZE]
  omega

-- All pointers of the region are accepted if the bitmap is behind it, and none if it is not.
theorem accepts_pointer (hi : i < BITS) : a.Accepts (a.pointer i) ↔ a.Below := by
  have := h.apart
  rw [h.accepts_iff]
  simp only [Apart, pointer, Below, BMP_SIZE, BITS, MEM_SIZE, PAGE_SIZE] at *
  omega

-- The address of the region is no address of a payload, but it is accepted unless the bitmap is in
-- front of the region.
theorem accepts_startAddr : a.Accepts a.startAddr ↔ ¬a.Above := by
  have := h.apart
  rw [h.accepts_iff]
  simp only [Apart, Above, BMP_SIZE, BITS, MEM_SIZE, PAGE_SIZE] at *
  omega

theorem not_accepts_of_above (ha : a.Above) : ¬a.Accepts p := by
  rw [h.accepts_iff]
  simp only [Above, BMP_SIZE, BITS, MEM_SIZE, PAGE_SIZE] at *
  omega

end Arena.Placed

namespace Session

variable (hk : Grants bitmapAddr kernel) (h : Run Calls (boot mem bitmapAddr kernel) cs s)
  (ha : s.arena.Placed)
include ha

section

include hk h

theorem accepts_iff_below : (∀ p ∈ s.live, s.arena.Accepts p) ↔ s.live = [] ∨ s.arena.Below := by
  have hp := (served_of_run hk h).pointers
  constructor
  case mpr =>
    intro hl p hm
    have ⟨i, hi, he⟩ := hp p hm
    have hb := hl.resolve_left fun hl => List.not_mem_nil (hl ▸ hm)
    exact he ▸ (ha.accepts_pointer hi).mpr hb
  case mp =>
    intro hacc
    cases hl : s.live
    case nil       => exact .inl rfl
    case cons p ps =>
      have hm : p ∈ s.live := hl ▸ List.mem_cons_self
      have ⟨i, hi, he⟩ := hp p hm
      exact .inr <| (ha.accepts_pointer hi).mp (he ▸ hacc p hm)

end

theorem rejects_iff_above : (∀ addr < 2 ^ 32, addr < s.arena.startAddr + PAGE_SIZE ∨
    s.arena.startAddr + PAGE_SIZE * BITS ≤ addr →
      ¬s.arena.Accepts addr ∧ free s.arena addr = s.arena) ↔ s.arena.Above := by
  constructor
  case mp =>
    intro hrej
    have hlt : s.arena.startAddr < 2 ^ 32 := by
      have := ha.region
      rw [MEM_SIZE] at this
      omega
    have hs := hrej s.arena.startAddr hlt (.inl <| Nat.lt_add_of_pos_right (by decide))
    exact not_not.mp <| ha.accepts_startAddr.not.mp hs.left
  case mpr =>
    intro habove p _ _
    have hn := ha.not_accepts_of_above habove (p := p)
    exact ⟨hn, free_rejected hn⟩

end Session

-- One half of the address test is right if the region is in front of the bitmap, and the other half
-- if it is behind. Both are only right if there is nothing to be freed.
theorem screens_iff (hk : Grants bitmapAddr kernel)
    (h : Run Calls (.boot mem bitmapAddr kernel) cs s) (ha : s.arena.Placed) :
    s.Screens ↔ s.live = [] ∧ s.arena.Above := by
  have hacc := Session.accepts_iff_below hk h ha
  have hrej := Session.rejects_iff_above ha
  constructor
  case mp =>
    intro hs
    have habove := hrej.mp hs.rejects
    refine ⟨(hacc.mp hs.accepts).resolve_right fun hb => ?_, habove⟩
    simp only [Arena.Below, Arena.Above, BMP_SIZE, BITS, MEM_SIZE, PAGE_SIZE] at *
    omega
  case mpr =>
    rintro ⟨hl, habove⟩
    exact ⟨hacc.mpr <| .inl hl, hrej.mpr habove⟩

-- The kernel grants a region in front of the bitmap.
theorem grants_zeroed : Grants (2 ^ 20) fun _ => .granted (2 ^ 16) := by
  intro _ _ _ _ a hb hs
  have hz : Session.zeroed.arena.Placed := by decide
  exact hz.congr hs hb

theorem run_zeroed : Run Calls (.boot (fun _ => 0) (2 ^ 20) fun _ => .granted (2 ^ 16)) [.malloc 4]
    (step .zeroed (.malloc 4)) := by
  have h : (4 : Nat) < 2 ^ 32 := by decide
  exact Run.refl.snoc (step_zeroed ▸ .called h)

-- The first block of that region.
theorem screens_iff_zeroed : (step .zeroed (.malloc 4)).Screens ↔
    (step .zeroed (.malloc 4)).live = [] ∧ (step .zeroed (.malloc 4)).arena.Above :=
  screens_iff grants_zeroed run_zeroed (by decide +kernel)

theorem foreign_accepted : ¬∀ mem bitmapAddr kernel cs s, Grants bitmapAddr kernel →
    Run Calls (.boot mem bitmapAddr kernel) cs s → s.arena.Placed → s.Screens := by
  intro h
  have hs := h _ _ _ _ _ grants_zeroed run_zeroed (by decide +kernel)
  have hr := hs.rejects (2 ^ 16) (by decide) (.inl (by decide +kernel))
  exact absurd hr.left (by decide +kernel)

end MemBitmap
