import Kpr.ConsoleServer.Ownership
import Kpr.ConsoleServer.Theorems.Switching

open Machine

namespace ConsoleServer

variable {s s' : Server} {r : Request} {rs : List Request} {console : ConsoleAlt1}
  {addr ds op fbAddr fbSize : Nat} {reply : DataspaceReply}

@[simp]
theorem ConsoleAlt1.buffer_eq : console.buffer = .buffer console.fbDs :=
  rfl

namespace Server

-- The next console gets the next slot.
structure Numbered (s : Server) : Prop extends s.Owned where
  below   : ∀ console ∈ s.consoles, console.id < s.idCtrl
  bounded : s.idCtrl ≤ NUM_CONSOLES

theorem boot_numbered : (boot fbAddr fbSize).Numbered := by
  constructor
  case toOwned => constructor <;> simp [boot, ConsoleCtrl.boot, ConsoleCtrl.setFb]
  case below   => exact nofun
  case bounded => exact Nat.zero_le _

namespace Numbered

variable (h : s.Numbered)
include h

-- Nothing but the flags of the consoles is changed.
theorem kept (hid : s'.idCtrl = s.idCtrl) (hcs : s'.consoles = s.consoles)
    (hctrl : s'.ctrl = s.ctrl ∨ s'.ctrl = s.ctrl.swap) : s'.Numbered := by
  have hds id : (s'.ctrl.consoles id).ds = (s.ctrl.consoles id).ds :=
    have ⟨_, hc⟩ := ConsoleCtrl.swap_consoles s.ctrl id
    hctrl.elim (fun he => by rw [he]) fun he => by rw [he, hc]
  have hb : s'.ctrl.outOfBounds = s.ctrl.outOfBounds :=
    hctrl.elim (congrArg _) fun he => he ▸ ConsoleCtrl.swap_same.right
  constructor
  case toOwned =>
    constructor
    case slots    => exact hcs ▸ h.slots
    case distinct => exact hcs ▸ h.distinct
    case inBounds => exact hb.trans h.inBounds
    case apart    => exact hcs ▸ h.apart
    case buffer   =>
      rw [hcs]
      intro console hm
      rw [hds]
      exact h.buffer console hm
  case below   => exact hid ▸ hcs ▸ h.below
  case bounded => exact hid ▸ h.bounded

-- A console is created in a slot which is free.
theorem created (hf : ∀ console ∈ s.consoles, console.fbDs ≠ ds) (hlt : s.idCtrl < NUM_CONSOLES) :
    (s.created ds addr).Numbered := by
  have hctrl : (s.created ds addr).idCtrl = s.idCtrl + 1 := created_idCtrl hlt
  have hne {console} (hm : console ∈ s.consoles) : console.id ≠ s.idCtrl :=
    Nat.ne_of_lt (h.below console hm)
  constructor
  case toOwned =>
    constructor
    case slots    => exact List.forall_mem_cons.mpr ⟨hlt, h.slots⟩
    case distinct => exact .cons (fun console hm => (hne hm).symm) h.distinct
    case inBounds =>
      have hb : decide (NUM_CONSOLES ≤ s.idCtrl) = false := decide_eq_false <| Nat.not_le.mpr hlt
      simp only [Server.created, ConsoleCtrl.attached, h.inBounds, hb, Bool.or_false]
    case apart    =>
      refine .cons (fun console hm he => ?_) h.apart
      exact hf console hm (GoosReply.buffer.inj he).symm
    case buffer   =>
      intro console hm
      simp only [Server.created, ConsoleCtrl.attached] at hm ⊢
      cases List.mem_cons.mp hm
      case inl he => rw [he, Function.update_self, ConsoleAlt1.buffer_eq]
      case inr hm =>
        rw [Function.update_of_ne (hne hm)]
        exact h.buffer console hm
  case below   =>
    intro console hm
    rw [hctrl]
    cases List.mem_cons.mp hm
    case inl he => exact he ▸ Nat.lt_succ_self _
    case inr hm => exact (h.below console hm).trans <| Nat.lt_succ_self _
  case bounded => exact hctrl.le.trans hlt

theorem serve (hs : Serve s r s') (hg : s.HasSlot r) : s'.Numbered := by
  have ⟨hf, hr⟩ := hs
  cases r
  case goos i label op =>
    have ⟨⟨reply, s₁⟩, hd, he⟩ := Option.map_eq_some_iff.mp hr
    have ⟨console, _, hc⟩ := Option.bind_eq_some_iff.mp hd
    cases Option.some.inj hc
    cases he
    exact h
  case event e =>
    cases step_cases hr
    case inl hk =>
      have ⟨hid, hcs, hctrl, _⟩ := hk
      exact h.kept hid hcs hctrl
    case inr hk =>
      have ⟨ds, reply, he, hserver⟩ := hk
      subst he hserver
      exact h.created hf <| hg ⟨rfl, rfl⟩

-- The consoles behind the last slot do not have one.
theorem owned_iff (hs : Serve s r s') : s'.Owned ↔ s.HasSlot r := by
  constructor
  case mpr => exact fun hg => (h.serve hs hg).toOwned
  case mp  =>
    intro ho
    have hr := hs.result
    cases r
    case goos    => trivial
    case event e =>
      intro hc
      cases step_cases hr
      case inl hk => exact absurd hc hk.right.right.right
      case inr hk =>
        have ⟨ds, reply, _, hserver⟩ := hk
        subst hserver
        exact ho.slots _ List.mem_cons_self

end Numbered

-- Each console owns its slot in exactly those runs in which no console is created without a slot. A
-- request for a console is either refused without an effect, or it yields the next console.
theorem owned_iff_hasSlot : (Run (Guarded HasSlot Serve) (boot fbAddr fbSize) rs s ↔
    Run (Reaching Owned Serve) (boot fbAddr fbSize) rs s) ∧
    ∀ op ds reply r s', s.dispatch .Factory op ds reply = some (r, s') →
      r = .EINVAL ∧ s' = s ∨ r = .EOK { id := s.idCtrl, fbDs := ds } ∧
        s'.consoles = { id := s.idCtrl, fbDs := ds } :: s.consoles := by
  constructor
  case left =>
    exact Run.guarded_iff boot_numbered (fun h hs => h.owned_iff hs)
      fun h hs ho => h.serve hs <| (h.owned_iff hs).mp ho
  case right =>
    intro op ds reply r s' hd
    cases dispatch_cases hd
    case inl hc =>
      have ⟨hs, _, hr⟩ := hc
      exact .inl ⟨hr rfl, hs⟩
    case inr hc =>
      have ⟨_, _, hr, hs⟩ := hc
      exact .inr ⟨hr, hs ▸ rfl⟩

-- Two clients get a console each, TAB switches to the second one, and the first one asks for its
-- buffer. The next request for a console would be granted although there is no slot for it.
theorem owned_iff_hasSlot_of_two : ∃ s s', Run (Reaching Owned Serve) (boot 0 0)
    [.event (.request .Factory 0 7 (.granted 0)), .event (.request .Factory 0 8 (.granted 4096)),
      .event (.poll [Keyboard.Key.TAB.code]), .goos 1 .Goos (.Get_buffer 0)] s ∧
    s.goos 1 .Goos (.Get_buffer 0) = some (.buffer 7, s) ∧
    s.dispatch .Factory 0 9 (.granted 8192) = some (.EOK { id := 2, fbDs := 9 }, s') ∧
    s'.consoles = { id := 2, fbDs := 9 } :: s.consoles := by
  have hc {s : Server} {ds reply s'} (hf : ∀ console ∈ s.consoles, console.fbDs ≠ ds)
      (hg : s.idCtrl < NUM_CONSOLES) (hr : s.step (.request .Factory 0 ds reply) = some s') :
      Guarded HasSlot Serve s (.event (.request .Factory 0 ds reply)) s' := ⟨fun _ => hg, hf, hr⟩
  have hr : Run (Guarded HasSlot Serve) (boot 0 0)
      [.event (.request .Factory 0 7 (.granted 0)), .event (.request .Factory 0 8 (.granted 4096)),
        .event (.poll [Keyboard.Key.TAB.code]), .goos 1 .Goos (.Get_buffer 0)] _ :=
    .cons (hc (by decide) (by decide) rfl) <| .cons (hc (by decide) (by decide) rfl) <|
    .cons ⟨nofun, trivial, rfl⟩ <| .cons ⟨trivial, trivial, rfl⟩ .refl
  have hi := owned_iff_hasSlot.left.mp hr
  refine ⟨_, _, hi, rfl, rfl, ?_⟩
  cases (@owned_iff_hasSlot _ [] 0 0).right 0 9 (.granted 8192) _ _ rfl
  case inl hn => exact nomatch hn.left
  case inr hc => exact hc.right

-- A third client asks for a console.
theorem slot_exceeded : ¬∀ fbAddr fbSize rs s, Run Serve (boot fbAddr fbSize) rs s → s.Owned := by
  intro h
  have hc {s : Server} {ds s'} (hf : ∀ console ∈ s.consoles, console.fbDs ≠ ds)
      (hs : s.step (.request .Factory 0 ds (.granted 0)) = some s') :
      Serve s (.event (.request .Factory 0 ds (.granted 0))) s' := ⟨hf, hs⟩
  have hr : Run Serve (boot 0 0)
      (List.map (.event <| .request .Factory 0 · (.granted 0)) [0, 1, 2]) _ :=
    .cons (hc (by decide) rfl) <| .cons (hc (by decide) rfl) <| .cons (hc (by decide) rfl) .refl
  exact absurd (h _ _ _ _ hr).inBounds (by decide)

end Server
end ConsoleServer
