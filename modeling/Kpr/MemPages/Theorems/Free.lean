import Kpr.MemPages.Free
import Kpr.MemPages.Theorems.Exclusive

open Machine

namespace MemPages

variable {p p' : Process} {c : Call} {cs : List Call} {d : Chunk} {kernel : Nat → DataspaceReply}
  {b b' runner addr extent head size fuel i n : Nat} {bs l rest : List Nat}

theorem address_page (h : b + sizeofDmemElem * (8 * PAGE_SIZE) < 2 ^ 32) (hi : i < 8) :
    address b i = b + sizeofDmemElem * (1 + i * PAGE_SIZE / 8) := by
  simp only [address, sizeofDmemElem, PAGE_SIZE] at h ⊢
  omega

-- Pages are behind the header of their element.
theorem found_invalid (h : runner + sizeofDmemElem * (8 * PAGE_SIZE) < 2 ^ 32)
    (ha : addr < runner + sizeofDmemElem) : found addr runner = .invalid := by
  have hn : (List.range 8).find? (addr = address runner ·) = none := by
    rw [List.find?_eq_none]
    intro idx hi heq
    have heq := of_decide_eq_true heq
    rw [address_page h (List.mem_range.mp hi)] at heq
    simp only [sizeofDmemElem] at ha heq
    omega
  rw [found, hn]

theorem found_page (hi : i < 8) : ∃ idx, found (address runner i) runner = .page runner idx := by
  cases hf : (List.range 8).find? (address runner i = address runner ·)
  case none     => simpa using List.find?_eq_none.mp hf i (List.mem_range.mpr hi)
  case some idx => exact ⟨idx, by rw [found, hf]⟩

namespace Process

-- Behind the last element comes `head`.
theorem nextOf_append (h : runner ∉ l) :
    p.nextOf runner (l ++ runner :: rest) = rest.headD p.head := by
  induction l
  case nil =>
    cases rest
    case nil  => rfl
    case cons => exact if_pos rfl
  case cons a l hi =>
    have ⟨ha, hd⟩ := not_or.mp (List.mem_cons.not.mp h)
    cases l
    case nil          => exact (if_neg (Ne.symm ha)).trans (hi hd)
    case cons a' l => exact (if_neg (Ne.symm ha)).trans (hi hd)

end Process

theorem RegionsOk.nodup (h : RegionsOk bs) : bs.Nodup := by
  apply h.apart.imp
  rintro b _ ha rfl
  simp only [Apart, regionBytes, sizeofDmemElem] at ha
  omega

theorem Placed.nodup (h : Placed p extent) : (p.head :: p.heap.blocks).Nodup :=
  List.nodup_cons.mpr ⟨fun hm => h.head _ hm rfl, h.regions.nodup⟩

-- The pointers of the elements while nothing has been unmapped.
theorem next_eq (h : Placed p extent) (hu : p.unmapped = [])
    (hb : p.heap.blocks = l ++ runner :: rest) : p.next runner = some (rest.headD p.head) := by
  have hnodup := h.nodup
  rw [hb, ← List.cons_append] at hnodup
  have hd := (List.nodup_append.mp hnodup).right.right
  rw [Process.next, hu, if_neg List.not_mem_nil, hb, ← List.cons_append, Process.nextOf_append]
  exact fun hm => hd runner hm runner List.mem_cons_self rfl

-- The last block is not visited if there is another one, and in all other blocks the address would have
-- to be in front of the pages.
theorem findBlock_invalid (h : Placed p extent) (hu : p.unmapped = [])
    (hb : p.heap.blocks = l ++ runner :: b :: rest) (hf : rest.length < fuel) :
    p.findBlock addr fuel runner = .invalid := by
  induction fuel generalizing l runner b rest
  case zero         => contradiction
  case succ fuel hi =>
    have huser := h.user runner (hb ▸ by simp)
    have hbh : b ≠ p.head := h.head b (hb ▸ by simp)
    rw [Process.findBlock, next_eq h hu hb]
    split
    case isTrue ha => exact found_invalid huser (Nat.lt_add_right _ ha)
    case isFalse   =>
      dsimp only [List.headD_cons]
      rw [if_neg (hbh ·.left)]
      have hb' : p.heap.blocks = (l ++ [runner]) ++ b :: rest := by rw [hb, List.append_assoc]; rfl
      cases rest
      case nil =>
        rw [next_eq h hu hb']
        exact if_pos rfl
      case cons c rest =>
        have hch : c ≠ p.head := h.head c (hb ▸ by simp)
        rw [next_eq h hu hb']
        dsimp only [List.headD_cons]
        rw [if_neg hch]
        exact hi hb' (Nat.lt_of_succ_lt_succ hf)

theorem find_invalid (h : Placed p extent) (hu : p.unmapped = []) (hl : 2 ≤ p.heap.blocks.length) :
    p.find addr = .invalid := by
  obtain ⟨b, b', rest, hb⟩ : ∃ b b' rest, p.heap.blocks = b :: b' :: rest := by
    match hb : p.heap.blocks with
    | []             => simp [hb] at hl
    | [_]            => simp [hb] at hl
    | b :: b' :: rest => exact ⟨b, b', rest, rfl⟩
  have hfirst : p.nextOf p.head (p.head :: p.heap.blocks) = b := hb ▸ if_pos rfl
  rw [Process.find, hfirst]
  split
  case isTrue  => rfl
  case isFalse => exact findBlock_invalid (l := []) h hu hb (by simp only [hb, List.length_cons]; omega)

-- A page of the only block is found.
theorem find_page (h : Placed p extent) (hu : p.unmapped = []) (hb : p.heap.blocks = [b])
    (hi : i < 8) : ∃ idx, p.find (address b i) = .page b idx := by
  have huser := h.user b (hb ▸ List.mem_cons_self)
  have hfirst : p.nextOf p.head (p.head :: p.heap.blocks) = b := hb ▸ if_pos rfl
  obtain ⟨idx, hf⟩ : ∃ idx, found (address b i) b = .page b idx := found_page hi
  refine ⟨idx, ?_⟩
  have haddr := address_page huser hi
  have hin : address b i < (b + sizeofDmemElem * (8 * PAGE_SIZE)) % 2 ^ 32 := by
    simp only [haddr, sizeofDmemElem, PAGE_SIZE] at huser ⊢
    omega
  have hheader : (b + sizeofDmemElem) % 2 ^ 32 ≤ address b i := by
    simp only [haddr, sizeofDmemElem, PAGE_SIZE] at huser ⊢
    omega
  have hge : ¬address b i < b := by
    simp only [haddr, sizeofDmemElem, PAGE_SIZE]
    omega
  rw [Process.find, hfirst]
  rw [if_neg (Nat.not_lt.mpr hheader), Process.findBlock, if_neg hge, next_eq (l := []) h hu hb]
  dsimp only
  rw [if_pos ⟨rfl, hin⟩, hf]

-- Nothing has been unmapped.
structure Alive (p : Process) (extent : Nat) : Prop where
  unmapped   : p.unmapped = []
  consistent : p.toSession.Consistent
  placed     : Placed p extent

theorem boot_alive (he : regionBytes ≤ extent) : Alive (.boot kernel head) extent where
  unmapped   := rfl
  consistent := Session.boot_consistent
  placed     := ⟨⟨nofun, nofun, .nil⟩, nofun, nofun, he⟩

theorem Session.Consistent.filter {s : Session} (h : s.Consistent) {q : Chunk → Bool} :
    Session.Consistent { s with live := s.live.filter q } where
  regions  := h.regions
  apart    := h.apart.filter q
  slots c hc := h.slots c (List.mem_of_mem_filter hc)

namespace Alive

variable (h : Alive p extent)
include h

theorem malloc (hf : p.Fits size) (hs : size < 6 * PAGE_SIZE) (hm : p.malloc size = some p')
    (hp : Placed p' extent) : Alive p' extent := by
  rw [Process.malloc] at hm
  split at hm
  case isTrue  => contradiction
  case isFalse =>
    obtain ⟨s, hs', hm⟩ := Option.bind_eq_some_iff.mp hm
    obtain rfl := Option.some.inj hm
    have ht : Transition p.toSession size s := ⟨hs, hs', hp.regions⟩
    exact ⟨h.unmapped, ht.consistent h.consistent hf, hp⟩

theorem forget : Alive (p.forget addr) extent where
  unmapped   := h.unmapped
  consistent := h.consistent.filter
  placed     := ⟨h.placed.regions, h.placed.user, h.placed.head, h.placed.extent⟩

-- As long as there are two elements, nothing is ever freed.
theorem free_two (hl : 2 ≤ p.heap.blocks.length) : p.free extent addr = some (p.forget addr) := by
  have hf : (p.forget addr).find addr = .invalid :=
    find_invalid h.forget.placed h.unmapped hl
  rw [Process.free, hf]

-- If there is only one element, it is unmapped together with all of its pages, and with the bitmap
-- which is printed afterwards.
theorem free_one (hl : p.heap.blocks.length < 2) (hd : d ∈ p.live) : p.free extent d.addr = none := by
  obtain ⟨b, hb, i, n, hslot⟩ := h.consistent.slots d hd
  have hbs : p.heap.blocks = [b] := by
    match hbs : p.heap.blocks with
    | []          => simp [hbs] at hb
    | [_]         => simpa [hbs, eq_comm] using hb
    | _ :: _ :: _ =>
      rw [hbs, List.length_cons, List.length_cons] at hl
      omega
  have haddr : d.addr = address b i := by
    rw [hslot.addr, address_eq (h.placed.regions.le b hb) hslot.fits]
  have hfits := hslot.fits
  have hregion := h.placed.extent
  simp only [offset, sizeofDmemElem, PAGE_SIZE, BLOCK_SIZE, regionBytes] at hfits hregion
  obtain ⟨idx, hf⟩ : ∃ idx, (p.forget d.addr).find (address b i) = .page b idx :=
    find_page h.forget.placed h.unmapped hbs (by omega)
  -- The address is in the region which is detached.
  have hin : b ≤ d.addr ∧ d.addr < b + extent := by
    rw [hslot.addr]
    simp only [offset, sizeofDmemElem, PAGE_SIZE]
    omega
  have hm : b ∈ (p.forget d.addr).unmapped ++
      p.heap.blocks.filter fun b => b ≤ d.addr ∧ d.addr < b + extent :=
    List.mem_append_right _ <| List.mem_filter.mpr ⟨hb, decide_eq_true hin⟩
  have hn : b ∉ (p.forget d.addr).unmapped := h.unmapped ▸ List.not_mem_nil
  rw [← haddr] at hf
  rw [Process.free, hf]
  dsimp only
  rw [if_neg hn]
  exact if_pos hm

-- If `free` returns, then the client has got rid of a pointer, and this is all.
theorem free (hd : d ∈ p.live) (hf : p.free extent d.addr = some p') : p' = p.forget d.addr := by
  by_cases hl : 2 ≤ p.heap.blocks.length
  case pos => exact Option.some.inj (hf.symm.trans (h.free_two hl))
  case neg =>
    rw [h.free_one (Nat.lt_of_not_le hl) hd] at hf
    contradiction

theorem step (hg : p.Proper c) (hs : Returned extent p c p') : Alive p' extent := by
  have ⟨ha, hr, hp⟩ := hs
  cases c
  case malloc size => exact h.malloc hg (ha size rfl) hr hp
  case free addr   =>
    obtain ⟨d, hd, rfl⟩ := hg
    exact h.free hd hr ▸ h.forget

omit h in
theorem of_run (he : regionBytes ≤ extent)
    (hr : Run (Guarded Process.Proper (Returned extent)) (.boot kernel head) cs p) :
    Alive p extent :=
  hr.invariant (P := (Alive · extent)) (boot_alive he) fun h ht => h.step ht.guard ht.step

end Alive

def Call.isMalloc : Call → Bool
  | malloc _ => true
  | free _   => false

-- It makes no difference for `malloc` which pointers the client uses.

theorem searched_live {live : List Chunk} {required zeros : Nat} :
    { p with live }.searched required bs zeros = p.searched required bs zeros := by
  induction bs generalizing zeros
  case nil          => rfl
  case cons b bs hi => simp only [Process.searched, hi]

theorem malloc_live {live : List Chunk} (h : p.malloc size = some p') :
    ∃ d, p'.live = d :: p.live ∧
      { p with live }.malloc size = some { p' with live := d :: live } := by
  rw [Process.malloc] at h
  split at h
  case isTrue       => contradiction
  case isFalse hn =>
    obtain ⟨s, hs, h⟩ := Option.bind_eq_some_iff.mp h
    obtain ⟨⟨addr, heap⟩, hm, hs⟩ := Option.bind_eq_some_iff.mp hs
    cases hs
    cases h
    refine ⟨_, rfl, ?_⟩
    have hs : step { p.toSession with live } size = some { heap, live := { addr, size } :: live } := by
      rw [step, hm]
      rfl
    simp only [Process.malloc, searched_live, if_neg hn, hs]
    rfl

-- The same happens if all calls of `free` are left out.
theorem exists_run_of_run (he : regionBytes ≤ extent)
    (hr : Run (Guarded Process.Proper (Returned extent)) (.boot kernel head) cs p) :
    ∃ live, p.live.Sublist live ∧ Run (Guarded Process.Proper (Returned extent)) (.boot kernel head)
      (cs.filter Call.isMalloc) { p with live } := by
  induction hr
  case refl => exact ⟨[], .refl _, .refl⟩
  case snoc cs p c p' hr hs hi =>
    obtain ⟨live, hl, hr'⟩ := hi
    rw [List.filter_append]
    have ⟨hg, ha, hres, hp⟩ := hs
    cases c
    case malloc size =>
      obtain ⟨d, hd, hm⟩ := malloc_live hres
      refine ⟨d :: live, hd ▸ hl.cons_cons d, hr'.snoc ⟨hg, ha, hm, ?_⟩⟩
      exact ⟨hp.regions, hp.user, hp.head, hp.extent⟩
    case free addr =>
      obtain ⟨d, hd, rfl⟩ := hg
      obtain rfl := (Alive.of_run he hr).free hd hres
      refine ⟨live, List.filter_sublist.trans hl, ?_⟩
      exact (List.append_nil _).symm ▸ hr'

section

instance : Decidable (p.Proper c) :=
  match c with
  | .malloc size => inferInstanceAs (Decidable (p.Fits size))
  | .free addr   => inferInstanceAs (Decidable (∃ d ∈ p.live, d.addr = addr))

instance : Decidable (Placed p extent) :=
  decidable_of_iff (RegionsOk p.heap.blocks ∧
      (∀ b ∈ p.heap.blocks, b + sizeofDmemElem * (8 * PAGE_SIZE) < 2 ^ 32) ∧
      (∀ b ∈ p.heap.blocks, b ≠ p.head) ∧ regionBytes ≤ extent)
    ⟨fun ⟨h₁, h₂, h₃, h₄⟩ => ⟨h₁, h₂, h₃, h₄⟩, fun ⟨h₁, h₂, h₃, h₄⟩ => ⟨h₁, h₂, h₃, h₄⟩⟩

end

def Call.Admitted : Call → Prop
  | .malloc size => size < 6 * PAGE_SIZE
  | .free _      => True

instance : Decidable c.Admitted :=
  match c with
  | .malloc _ => inferInstanceAs (Decidable (_ < _))
  | .free _   => inferInstanceAs (Decidable True)

def Process.transit (extent : Nat) (p : Process) (c : Call) : Option Process := do
  let p' ← p.call extent c
  if p.Proper c ∧ c.Admitted ∧ Placed p' extent then some p' else none

theorem Process.transit_spec (h : p.transit extent c = some p') :
    Guarded Process.Proper (Returned extent) p c p' := by
  obtain ⟨p₁, hs, h⟩ := Option.bind_eq_some_iff.mp h
  split at h
  case isFalse   => contradiction
  case isTrue hg =>
    obtain rfl := Option.some.inj h
    refine ⟨hg.left, fun size hc => ?_, hs, hg.right.right⟩
    subst hc
    exact hg.right.left

-- An environment which grants regions at the multiples of 64 KiB.
def Process.ample : Process :=
  .boot (fun i => .granted (2 ^ 16 * (i + 1))) 4096

-- No page is handed out twice, whatever is freed in between.
theorem exclusive_of_calls (he : regionBytes ≤ extent)
    (hr : Run (Guarded Process.Proper (Returned extent)) (.boot kernel head) cs p) :
    p.toSession.Exclusive :=
  (Alive.of_run he hr).consistent.exclusive

theorem exclusive_of_three_mallocs : ∃ p, Run (Guarded Process.Proper (Returned 36864)) .ample
    [.malloc 24000, .malloc 100, .free 71692, .malloc 20480] p ∧ p.toSession.Exclusive := by
  have ⟨p, hr, _⟩ : ∃ p, Run (Guarded Process.Proper (Returned 36864)) .ample
      [.malloc 24000, .malloc 100, .free 71692, .malloc 20480] p ∧ True :=
    Run.exists_of_foldlM Process.transit_spec (by decide +kernel)
  exact ⟨p, hr, exclusive_of_calls (by decide) hr⟩

-- Memory which is freed is never used again. If there are two elements, then nothing happens, and
-- otherwise no call of `free` returns. Hence, all pointers could still be in use.
theorem free_never_reuses (he : regionBytes ≤ extent)
    (hr : Run (Guarded Process.Proper (Returned extent)) (.boot kernel head) cs p) :
    (2 ≤ p.heap.blocks.length → ∀ addr, p.free extent addr = some (p.forget addr)) ∧
    (p.heap.blocks.length < 2 → ∀ d ∈ p.live, p.free extent d.addr = none) ∧
    ∃ live, p.live.Sublist live ∧ Session.Exclusive { p.toSession with live } ∧
      Run (Guarded Process.Proper (Returned extent)) (.boot kernel head)
        (cs.filter Call.isMalloc) { p with live } := by
  have h := Alive.of_run he hr
  have ⟨live, hl, hr'⟩ := exists_run_of_run he hr
  have hx := (Alive.of_run he hr').consistent.exclusive
  exact ⟨fun hl _ => h.free_two hl, fun hl _ hd => h.free_one hl hd, live, hl, hx, hr'⟩

-- The second request obtains a second element, and the third one does not obtain the pages which are
-- freed.
theorem free_never_reuses_two : ∃ p, Run (Guarded Process.Proper (Returned 36864)) .ample
    [.malloc 24000, .malloc 100, .free 71692, .malloc 20480] p ∧ p.live.length = 2 ∧
    (∀ addr, p.free 36864 addr = some (p.forget addr)) ∧
    ∃ q, q.heap = p.heap ∧ Run (Guarded Process.Proper (Returned 36864)) .ample
      [.malloc 24000, .malloc 100, .malloc 20480] q := by
  have ⟨p, hr, hl, hlive⟩ : ∃ p, Run (Guarded Process.Proper (Returned 36864)) .ample
      [.malloc 24000, .malloc 100, .free 71692, .malloc 20480] p ∧ 2 ≤ p.heap.blocks.length ∧
        p.live.length = 2 :=
    Run.exists_of_foldlM Process.transit_spec (by decide +kernel)
  have ⟨hf, _, live, _, _, hr'⟩ := free_never_reuses (by decide) hr
  exact ⟨p, hr, hlive, hf hl, { p with live }, rfl, hr'⟩

end MemPages
