import Kpr.ConsoleServer.Startup
import Kpr.ConsoleServer.Theorems.Switching

open Machine

namespace ConsoleServer.Startup

variable {s s' : Startup} {a : Action} {as : List Action} {e : Event} {addr ds size : Nat}

theorem attach_of_not_creates (h : ¬e.Creates) : s.attach e = s.attached := by
  unfold attach
  split
  case h_1 => exact absurd ⟨rfl, rfl⟩ h
  case h_2 => rfl

-- What is known about the threads while the consoles come into being.
structure Consistent (s : Startup) : Prop where
  fb       : ∀ addr ∈ s.fb, addr = s.server.ctrl.fbAddr
  attached : ∀ id, s.attached id =
    if id < s.server.idCtrl then some (s.server.ctrl.consoles id).addr else none
  active   : (s.server.ctrl.consoles 0).active = true ∨ (s.server.ctrl.consoles 1).active = true →
    0 < s.server.idCtrl
  bounded  : s.server.idCtrl ≤ NUM_CONSOLES
  copies   : s.CopiesAttached

theorem boot_consistent : boot.Consistent where
  fb         := nofun
  attached _ := rfl
  active     := by simp [boot, ConsoleCtrl.boot]
  bounded    := Nat.zero_le _
  copies     := nofun

namespace Consistent

variable (h : s.Consistent)
include h

-- The console which is shown has been attached, unless it is the second one and has not been
-- created.
theorem shown_lt_iff : s.server.ctrl.shown < s.server.idCtrl ↔
    (s.server.ctrl.consoles 0).active = true ∨ s.server.idCtrl = NUM_CONSOLES := by
  have hb := h.bounded
  rw [ConsoleCtrl.shown]
  cases hc : (s.server.ctrl.consoles 0).active
  case true  => exact iff_of_true (h.active <| .inl hc) (.inl rfl)
  case false =>
    simp only [NUM_CONSOLES, Bool.not_false, if_true, Bool.false_eq_true, false_or] at *
    omega

theorem copied_iff : s.copied.fb = some s.copied.copy.dest ∧
    s.copied.attached = some s.copied.copy.src ↔ s.Ready (.event .refresh) := by
  have hatt : s.attached s.server.ctrl.shown = some s.copied.copy.src ↔
      s.server.ctrl.shown < s.server.idCtrl := by
    have hsrc : s.copied.copy.src = (s.server.ctrl.consoles s.server.ctrl.shown).addr := rfl
    rw [hsrc]
    rw [h.attached]
    split <;> simp [*]
  have hfb : s.fb = some s.server.ctrl.fbAddr ↔ s.fb ≠ none := by
    constructor
    case mp  => exact fun he hn => nomatch he.symm.trans hn
    case mpr =>
      intro hn
      have ⟨addr, he⟩ := Option.ne_none_iff_exists'.mp hn
      rw [he, h.fb addr he]
  exact and_congr hfb (hatt.trans h.shown_lt_iff)

theorem setFb : ({ s with server.ctrl := s.server.ctrl.setFb addr size, fb := some addr } :
    Startup).Consistent where
  fb _ ha  := (Option.mem_some.mp ha).symm
  attached := h.attached
  active   := h.active
  bounded  := h.bounded
  copies   := h.copies

-- Neither polls nor refreshes change what is attached.
theorem kept {server : Server} {copies : List Copied} (hid : server.idCtrl = s.server.idCtrl)
    (hctrl : server.ctrl = s.server.ctrl ∨ server.ctrl = s.server.ctrl.swap)
    (hcopies : ∀ c ∈ copies, c.fb = some c.copy.dest ∧ c.attached = some c.copy.src) :
    Consistent { server, fb := s.fb, attached := s.attached, copies } := by
  have hfb : server.ctrl.fbAddr = s.server.ctrl.fbAddr :=
    hctrl.elim (congrArg _) fun he => he ▸ ConsoleCtrl.swap_same.left
  have haddr id : (server.ctrl.consoles id).addr = (s.server.ctrl.consoles id).addr :=
    have ⟨_, hc⟩ := ConsoleCtrl.swap_consoles s.server.ctrl id
    hctrl.elim (fun he => by rw [he]) fun he => by rw [he, hc]
  constructor
  case fb       => exact fun addr ha => (h.fb addr ha).trans hfb.symm
  case attached =>
    intro id
    dsimp only
    rw [h.attached, hid, haddr]
  case active   =>
    dsimp only
    rw [hid]
    intro ha
    apply h.active
    cases hctrl
    case inl he => rwa [he] at ha
    case inr he =>
      rw [he, ConsoleCtrl.swap_active_zero, ConsoleCtrl.swap_active_one] at ha
      cases ha
      case inl ha => exact .inr ((Bool.and_eq_true ..).mp ha).left
      case inr ha => exact .inl ha
  case bounded  => exact hid ▸ h.bounded
  case copies   => exact hcopies

-- When a console is created, it is attached.
theorem created (hlt : s.server.idCtrl < NUM_CONSOLES) : Consistent {
    server   := s.server.created ds addr
    fb       := s.fb
    attached := Function.update s.attached s.server.idCtrl (some addr)
    copies   := s.copies } := by
  have hctrl : (s.server.created ds addr).idCtrl = s.server.idCtrl + 1 :=
    Server.created_idCtrl hlt
  constructor
  case fb       => exact h.fb
  case attached =>
    intro id
    rw [hctrl]
    simp only [Server.created, ConsoleCtrl.attached]
    by_cases hid : id = s.server.idCtrl
    case pos => rw [hid, Function.update_self, Function.update_self, if_pos (Nat.lt_succ_self _)]
    case neg =>
      have hlt : id < s.server.idCtrl + 1 ↔ id < s.server.idCtrl := by omega
      rw [Function.update_of_ne hid, Function.update_of_ne hid, h.attached]
      simp only [hlt]
  case active   =>
    intro _
    rw [hctrl]
    exact Nat.succ_pos _
  case bounded  => exact hctrl.le.trans hlt
  case copies   => exact h.copies

theorem next (ht : Next s a s') (hc : s'.CopiesAttached) : s'.Consistent := by
  have ⟨hadm, hr⟩ := ht
  cases a
  case setFb addr size =>
    cases Option.some.inj hr
    exact h.setFb
  case event e =>
    have ⟨server, hs, hr⟩ := Option.bind_eq_some_iff.mp hr
    cases Option.some.inj hr
    cases Server.step_cases hs
    case inl hk =>
      have ⟨hid, _, hctrl, he⟩ := hk
      rw [attach_of_not_creates he]
      exact h.kept hid hctrl hc
    case inr hk =>
      have ⟨ds, reply, he, hserver⟩ := hk
      subst he hserver
      exact h.created <| hadm _ rfl ⟨rfl, rfl⟩

-- Only a refresh which is not ready makes a difference.
theorem copiesAttached_iff (ht : Next s a s') : s'.CopiesAttached ↔ s.Ready a := by
  have hr := ht.result
  cases a
  case setFb addr size =>
    cases Option.some.inj hr
    exact iff_of_true h.copies trivial
  case event e =>
    have ⟨server, _, hr⟩ := Option.bind_eq_some_iff.mp hr
    cases Option.some.inj hr
    cases e
    case request => exact iff_of_true h.copies trivial
    case poll    => exact iff_of_true h.copies trivial
    case refresh =>
      rw [← h.copied_iff]
      constructor
      case mp  => exact fun hc => hc _ List.mem_cons_self
      case mpr =>
        intro hn c hc
        cases List.mem_cons.mp hc
        case inl hc => exact hc ▸ hn
        case inr hc => exact h.copies c hc

end Consistent

-- Only attached buffers are copied in exactly those runs in which nothing is refreshed before the
-- framebuffer has been set and the console to be shown has been created.
theorem copiesAttached_iff_ready :
    Run (Guarded Ready Next) boot as s ↔ Run (Reaching CopiesAttached Next) boot as s :=
  Run.guarded_iff boot_consistent (fun h ht => h.copiesAttached_iff ht) fun h ht hc => h.next ht hc

-- The framebuffer is set, but no client asks for a console before the first refresh.
theorem unattached_copied : ¬∀ as s, Run Next boot as s → s.CopiesAttached := by
  intro h
  have h₁ : Next boot (.setFb 4096 1024) _ := ⟨nofun, rfl⟩
  have h₂ {s s' : Startup} (hs : s.step (.event .refresh) = some s') :
      Next s (.event .refresh) s' := ⟨by rintro _ ⟨⟩ ⟨⟩, hs⟩
  have hc := h _ _ ((Run.refl.snoc h₁).snoc (h₂ rfl))
  exact absurd (hc _ List.mem_cons_self).right (by decide)

end ConsoleServer.Startup
