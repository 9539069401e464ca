import Kpr.Keyboard.Replies
import Kpr.Keyboard.Theorems.Tracking

namespace Keyboard

variable {s s' : Threads} {e : Event} {es : List Event} {l : NodeList Nat} {it : Iterator}
  {r : Reply} {vs : List Nat} {buf : Nat}

-- At most one key is put in front of the others.
theorem press_eq : press buf vs = (press buf []).head?.toList ++ vs := by
  unfold press
  split <;> rfl

-- What happens to the nodes.
theorem handleNodes_nodes (buf : Nat) (l : NodeList Nat) : ∃ ns : List (Node Nat),
    ns.map Node.value = (press buf []).head?.toList ∧ (handleNodes buf l).nodes =
      ((ns ++ l.nodes).filter (!released buf ·.value)).destutter (·.value ≠ ·.value) := by
  rw [handleNodes]
  cases (press buf []).head?
  case none     => exact ⟨[], rfl, rfl⟩
  case some key => exact ⟨[_], rfl, rfl⟩

-- The nodes contain what the list is meant to contain.
theorem handleNodes_values : (handleNodes buf l).values = handle buf l.values := by
  have hpress : press buf l.values = (press buf []).head?.toList ++ l.values := press_eq
  rw [handleNodes, NodeList.unique_values, NodeList.filter_values, handle, hpress, eraseReleased_eq,
    unique]
  cases (press buf []).head? <;> rfl

-- If a scan code spares the nodes from an iterator on, then these are still there afterwards, and
-- behind the same iterator.
theorem Threads.Spares.rest_eq (h : Threads.Spares buf l it) (hv : l.Valid it)
    (hc : l.values.IsChain (· ≠ ·)) :
    (handleNodes buf l).rest it = l.rest it ∧ (handleNodes buf l).Valid it := by
  cases it
  case none      => exact ⟨rfl, nofun⟩
  case some elem =>
    have ⟨n, ns, hr⟩ := NodeList.rest_of_valid hv
    have ⟨hkept, hsingle⟩ := h
    cases NodeList.iterator_of_rest hr
    have hl := NodeList.front_append_rest l (some n.id)
    rw [hr] at hkept hsingle hl
    have ⟨ps, hps, he⟩ := handleNodes_nodes buf l
    rw [← hl, ← List.append_assoc, List.filter_append] at he
    have hfilter : (n :: ns).filter (!released buf ·.value) = n :: ns := by
      apply List.filter_eq_self.mpr
      intro m hm
      rw [hkept m hm]
      rfl
    have hchain : (n :: ns).IsChain (·.value ≠ ·.value) := by
      rw [NodeList.values, List.isChain_map, ← hl] at hc
      exact (List.isChain_append.mp hc).right.left
    have hlast : ∀ m ∈ (n :: ns).head?, ∀ p ∈
        ((ps ++ l.front (some n.id)).filter (!released buf ·.value)).getLast?, p.value ≠ m.value := by
      intro m hm p hp hpm
      apply hsingle m hm
      rw [← hpm, press_eq, ← hps, ← List.map_append, eraseReleased_eq, List.filter_map,
        List.getLast?_map]
      exact congrArg (Option.map Node.value) hp
    rw [hfilter, List.destutter_append hchain hlast] at he
    have hrest := NodeList.rest_of_append he
    exact ⟨hrest.trans hr.symm, NodeList.valid_of_rest hrest⟩

namespace Reply

-- A client rebuilds the list in reverse.
theorem rebuilt_eq (h : r.count = r.codes.length) : r.rebuilt = r.codes.reverse := by
  rw [rebuilt, List.foldl_flip_cons_eq_append', List.append_nil, received, h, List.take_length]

end Reply

-- What is known of the reply which is being written.
def Progress.Sound (l : NodeList Nat) : Progress → Prop
  | idle         => True
  | counted r    => r.codes = [] ∧ l.values ∈ r.contents
  -- What has been written and what is left make up the list, as it was at some time.
  | writing r it => l.Valid it ∧ r.codes ++ (l.rest it).map Node.value ∈ r.contents ∧
    r.count = (r.codes ++ (l.rest it).map Node.value).length

namespace Threads

structure Sound (s : Threads) : Prop where
  consistent : ∀ r ∈ s.replies, r.Consistent
  chain      : s.list.values.IsChain (· ≠ ·)
  progress   : s.progress.Sound s.list

theorem boot_sound : boot.Sound where
  consistent := nofun
  chain      := .nil
  progress   := trivial

namespace Sound

variable (h : s.Sound)
include h

theorem interrupt (hg : s.Undisturbed (.interrupt buf)) (hs : s.step (.interrupt buf) = some s') :
    s'.Sound := by
  have ⟨hr, hc, hp⟩ := h
  cases Option.some.inj hs
  constructor
  case consistent => exact hr
  case chain =>
    dsimp only
    rw [handleNodes_values, handle, unique]
    exact List.isChain_destutter ..
  case progress =>
    dsimp only [Undisturbed] at hg ⊢
    cases hprog : s.progress
    case idle      => trivial
    case counted r =>
      rw [hprog] at hp
      exact ⟨hp.left, List.mem_cons_self⟩
    case writing r it =>
      rw [hprog] at hp
      obtain ⟨hv, hm, hn⟩ := hp
      obtain ⟨hrest, hv'⟩ := (hg r it hprog).rest_eq hv hc
      rw [← hrest] at hm hn
      exact ⟨hv', List.mem_cons_of_mem _ hm, hn⟩

theorem size (hs : s.step .size = some s') : s'.Sound := by
  have ⟨hr, hc, _⟩ := h
  simp only [step] at hs
  split at hs
  case h_1 =>
    cases Option.some.inj hs
    exact ⟨hr, hc, rfl, List.mem_cons_self⟩
  case h_2 => contradiction

theorem start (hg : s.Undisturbed .start) (hs : s.step .start = some s') : s'.Sound := by
  have ⟨hr, hc, hp⟩ := h
  simp only [step] at hs
  split at hs
  case h_2           => contradiction
  case h_1 r hprog =>
    cases Option.some.inj hs
    rw [hprog] at hp
    have ⟨hcodes, hm⟩ := hp
    refine ⟨hr, hc, NodeList.valid_first, ?_, ?_⟩
    · rwa [NodeList.rest_first, hcodes]
    · rw [NodeList.rest_first, hcodes]
      exact (hg r hprog).symm

theorem write (hs : s.step .write = some s') : s'.Sound := by
  have ⟨hr, hc, hp⟩ := h
  simp only [step] at hs
  split at hs
  case h_2                => contradiction
  case h_1 r elem hprog =>
    rw [hprog] at hp
    have ⟨hv, hm, hn⟩ := hp
    have ⟨n, ns, hrest⟩ := NodeList.rest_of_valid hv
    rw [NodeList.deref_eq hrest, NodeList.advance_eq hrest] at hs
    cases Option.some.inj hs
    rw [hrest, List.map_cons, List.append_cons] at hm hn
    refine ⟨hr, hc, NodeList.valid_next hrest, ?_, ?_⟩
    · rwa [NodeList.rest_next hrest]
    · rwa [NodeList.rest_next hrest]

theorem finish (hs : s.step .finish = some s') : s'.Sound := by
  have ⟨hr, hc, hp⟩ := h
  simp only [step] at hs
  split at hs
  case h_2           => contradiction
  case h_1 r hprog =>
    cases Option.some.inj hs
    rw [hprog] at hp
    have ⟨_, hm, hn⟩ := hp
    rw [NodeList.rest, List.map_nil, List.append_nil] at hm hn
    refine ⟨fun q hq => ?_, hc, trivial⟩
    cases List.mem_cons.mp hq
    case inl hq => exact hq ▸ ⟨hn, r.codes, hm, Reply.rebuilt_eq hn⟩
    case inr hq => exact hr q hq

theorem advance (hg : s.Undisturbed e) (hs : Advance s e s') : s'.Sound := by
  have ⟨hs⟩ := hs
  cases e
  case interrupt buf => exact h.interrupt hg hs
  case size          => exact h.size hs
  case start         => exact h.start hg hs
  case write         => exact h.write hs
  case finish        => exact h.finish hs

theorem snapshots : s.Snapshots where
  consistent      := h.consistent
  valid r it hprog := by
    have hp := h.progress
    rw [hprog] at hp
    exact hp.left

end Sound

-- All replies are snapshots in each run in which no step of the interrupt thread interferes with
-- what is still to be written.
theorem snapshots_of_undisturbed (h : Run (Guarded Undisturbed Advance) boot es s) : s.Snapshots :=
  Sound.snapshots <| h.invariant boot_sound fun hs ht => hs.advance ht.guard ht.step

-- A key is pressed while the code of another one is still to be written.
theorem snapshots_of_press : ∃ s, Run (Guarded Undisturbed Advance) boot
    [.interrupt 30, .size, .start, .interrupt 15, .write, .finish] s ∧ s.Snapshots := by
  have h : Run (Guarded Undisturbed Advance) boot
      [.interrupt 30, .size, .start, .interrupt 15, .write, .finish] _ :=
    .cons ⟨nofun, .advanced rfl⟩ <|
    .cons ⟨trivial, .advanced rfl⟩ <|
    .cons ⟨by rintro _ ⟨⟩; rfl, .advanced rfl⟩ <|
    .cons ⟨by rintro _ _ ⟨⟩; exact ⟨by decide, by decide⟩, .advanced rfl⟩ <|
    .cons ⟨trivial, .advanced rfl⟩ <|
    .cons ⟨trivial, .advanced rfl⟩ .refl
  exact ⟨_, h, snapshots_of_undisturbed h⟩

-- TAB is released while the code in front of it is still to be written.
theorem count_not_met : ¬∀ es s, Run Advance boot es s → ∀ r ∈ s.replies, r.Consistent := by
  intro h
  have hr : Run Advance boot [.interrupt 15, .interrupt 30, .size, .start, .interrupt 143, .write,
      .finish] _ := .of_foldlM .advanced rfl
  exact absurd (h _ _ hr _ List.mem_cons_self).count (by decide)

end Threads
end Keyboard
