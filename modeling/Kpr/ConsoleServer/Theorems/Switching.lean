import Kpr.ConsoleServer.Server
import Mathlib.Logic.Function.Basic

open Machine

namespace ConsoleServer

variable {c c' : ConsoleCtrl} {s s' : Server} {console : ConsoleAlt1} {e : Event} {es : List Event}
  {its received : List Nat} {lastTab : Bool} {ds op id fbAddr fbSize : Nat} {label : Protocol}
  {reply : DataspaceReply}

namespace ConsoleCtrl

-- The loop is left after at most one switch.
theorem switch_eq : c.switch lastTab its =
    if Keyboard.Key.TAB.code ∈ its ∧ lastTab = false then c.swap else c := by
  induction its
  case nil => simp [switch]
  case cons it its hi =>
    rw [switch, hi]
    by_cases h : it = Keyboard.Key.TAB.code <;> cases lastTab <;> simp [h, eq_comm]

-- All but the flags stays as it is.
theorem setActive_consoles (c : ConsoleCtrl) (id : Nat) (active : Bool) (i : Nat) :
    ∃ a, (c.setActive id active).consoles i = { c.consoles i with active := a } := by
  by_cases h : i = id
  case pos => exact ⟨active, by simp only [setActive, h, Function.update_self]⟩
  case neg => exact ⟨(c.consoles i).active, by simp only [setActive, Function.update_of_ne h]⟩

theorem swap_consoles (c : ConsoleCtrl) (i : Nat) :
    ∃ a, c.swap.consoles i = { c.consoles i with active := a } := by
  have hset (x b y b') : ∃ a, ((c.setActive x b).setActive y b').consoles i =
      { c.consoles i with active := a } := by
    have ⟨_, h₁⟩ := setActive_consoles (c.setActive x b) y b' i
    have ⟨_, h₂⟩ := setActive_consoles c x b i
    rw [h₁, h₂]
    exact ⟨_, rfl⟩
  rw [swap]
  split
  · exact hset 0 false 1 true
  split
  · exact hset 0 true 1 false
  · exact ⟨_, rfl⟩

theorem swap_same : c.swap.fbAddr = c.fbAddr ∧ c.swap.outOfBounds = c.outOfBounds := by
  rw [swap]
  split
  · exact ⟨rfl, rfl⟩
  split <;> exact ⟨rfl, rfl⟩

theorem swap_active_zero : (c.swap.consoles 0).active =
    ((c.consoles 1).active && !(c.consoles 0).active) := by
  cases h₀ : (c.consoles 0).active <;> cases h₁ : (c.consoles 1).active <;>
    simp [swap, setActive, h₀, h₁]

theorem swap_active_one : (c.swap.consoles 1).active = (c.consoles 0).active := by
  cases h₀ : (c.consoles 0).active <;> cases h₁ : (c.consoles 1).active <;>
    simp [swap, setActive, h₀, h₁]

-- The flags are exchanged whenever some console is active.
theorem swap_swaps : c.swap.swaps =
    c.swaps + if (c.consoles 0).active ∨ (c.consoles 1).active then 1 else 0 := by
  cases h₀ : (c.consoles 0).active <;> cases h₁ : (c.consoles 1).active <;> simp [swap, h₀, h₁]

-- Each iteration of `switch_loop` swaps the flags once or not at all.
theorem poll_fst : (c.poll lastTab received).fst = c.swap ∨ (c.poll lastTab received).fst = c := by
  rw [poll]
  split
  case isTrue  => exact .inr rfl
  case isFalse =>
    simp only [switch_eq]
    split
    case isTrue  => exact .inl rfl
    case isFalse => exact .inr rfl

-- The dataspace `ds` has been attached at `addr` for the console `id`.
def attached (c : ConsoleCtrl) (id ds addr : Nat) : ConsoleCtrl :=
  { c with
    consoles    := Function.update c.consoles id { addr, ds, active := id = 0 }
    outOfBounds := c.outOfBounds || decide (NUM_CONSOLES ≤ id) }

theorem getDs_spec (h : c.getDs id ds reply = some (op, c')) :
    op = ds ∧ c' = c.attached id ds reply.addr := by
  simp only [getDs] at h
  split at h
  · contradiction
  split at h
  · contradiction
  split at h
  · contradiction
  · cases Option.some.inj h
    exact ⟨rfl, rfl⟩

end ConsoleCtrl

namespace Server

-- The next console has been created with the dataspace `ds`, which has been attached at `addr`.
def created (s : Server) (ds addr : Nat) : Server :=
  { s with
    ctrl     := s.ctrl.attached s.idCtrl ds addr
    idCtrl   := Word.add s.idCtrl 1
    consoles := { id := s.idCtrl, fbDs := ds } :: s.consoles }

-- The counter does not wrap around while there is a slot for the console.
theorem created_idCtrl (hlt : s.idCtrl < NUM_CONSOLES) :
    (s.created ds addr).idCtrl = s.idCtrl + 1 :=
  Word.add_of_lt <| (Nat.succ_lt_succ hlt).trans (by decide)

theorem create_spec (h : s.create ds reply = some (console, s')) :
    console = { id := s.idCtrl, fbDs := ds } ∧ s' = s.created ds reply.addr := by
  have ⟨⟨fbDs, ctrl⟩, hc, h⟩ := Option.bind_eq_some_iff.mp h
  have ⟨hds, hctrl⟩ := ConsoleCtrl.getDs_spec hc
  cases Option.some.inj h
  subst hds hctrl
  exact ⟨rfl, rfl⟩

-- What a request to the factory leads to.
theorem dispatch_cases {r : Reply} (h : s.dispatch label op ds reply = some (r, s')) :
    s' = s ∧ ¬(label = .Factory ∧ op = 0) ∧ (label = .Factory → r = .EINVAL) ∨
    label = .Factory ∧ op = 0 ∧ r = .EOK { id := s.idCtrl, fbDs := ds } ∧
      s' = s.created ds reply.addr := by
  cases label
  case Meta =>
    cases Option.some.inj h
    exact .inl ⟨rfl, nofun, nofun⟩
  case other =>
    cases Option.some.inj h
    exact .inl ⟨rfl, nofun, nofun⟩
  case Factory =>
    by_cases hop : op = 0
    case neg =>
      simp only [dispatch, ne_eq, hop, not_false_eq_true, if_true] at h
      cases Option.some.inj h
      exact .inl ⟨rfl, fun ⟨_, hc⟩ => hop hc, fun _ => rfl⟩
    case pos =>
      simp only [dispatch, ne_eq, hop, not_true_eq_false, if_false] at h
      have ⟨⟨console, s₁⟩, hc, hs⟩ := Option.map_eq_some_iff.mp h
      cases hs
      have ⟨hconsole, hs⟩ := create_spec hc
      exact .inr ⟨rfl, hop, congrArg _ hconsole, hs⟩

-- What an event does to the server.
theorem step_cases (h : s.step e = some s') :
    s'.idCtrl = s.idCtrl ∧ s'.consoles = s.consoles ∧
      (s'.ctrl = s.ctrl ∨ s'.ctrl = s.ctrl.swap) ∧ ¬e.Creates ∨
    ∃ ds reply, e = .request .Factory 0 ds reply ∧ s' = s.created ds reply.addr := by
  cases e
  case refresh =>
    cases Option.some.inj h
    exact .inl ⟨rfl, rfl, .inl rfl, not_false⟩
  case poll received =>
    left
    cases Option.some.inj h
    exact ⟨rfl, rfl, ConsoleCtrl.poll_fst.symm, not_false⟩
  case request label op ds reply =>
    have ⟨⟨r, s₁⟩, hd, hs⟩ := Option.map_eq_some_iff.mp h
    cases hs
    cases dispatch_cases hd
    case inl hc =>
      have ⟨hs, hn, _⟩ := hc
      exact .inl ⟨hs ▸ rfl, hs ▸ rfl, .inl <| hs ▸ rfl, hn⟩
    case inr hc =>
      have ⟨hl, hop, _, hs⟩ := hc
      subst hl hop
      exact .inr ⟨ds, reply, rfl, hs⟩

-- The console which is shown is the active one.
theorem exclusive_iff :
    s.Exclusive ↔ (s.ctrl.consoles 0).active = !(s.ctrl.consoles 1).active := by
  constructor
  case mp => exact fun h => h.active
  case mpr =>
    intro h
    refine ⟨h, ?_⟩
    cases h₁ : (s.ctrl.consoles 1).active <;> simp [ConsoleCtrl.shown, h, h₁, NUM_CONSOLES]

-- No console is active before the first one has been created, and one console is afterwards.
structure Consistent (s : Server) : Prop where
  before   : s.idCtrl = 0 → (s.ctrl.consoles 0).active = false ∧ (s.ctrl.consoles 1).active = false
  switched : s.Switched

theorem boot_consistent : (boot fbAddr fbSize).Consistent where
  before _   := ⟨rfl, rfl⟩
  switched h := absurd rfl h

end Server

namespace Transition

open Server

variable (h : s.Consistent) (ht : Transition s e s')
include h ht

-- Only the creation of consoles makes a difference, all other events preserve the invariant.
theorem consistent (hs : s'.Switched) : s'.Consistent := by
  refine ⟨fun h₀ => ?_, hs⟩
  cases step_cases ht.result
  case inr hc =>
    have ⟨ds, reply, he, hs⟩ := hc
    rw [hs, created_idCtrl <| ht.admits <| he ▸ ⟨rfl, rfl⟩] at h₀
    contradiction
  case inl hc =>
    have ⟨hid, _, hc, _⟩ := hc
    have ⟨h₀, h₁⟩ := h.before (hid ▸ h₀)
    cases hc
    case inl hc => exact hc ▸ ⟨h₀, h₁⟩
    case inr hc => simp [hc, ConsoleCtrl.swap_active_zero, ConsoleCtrl.swap_active_one, h₀, h₁]

theorem switched_iff : s'.Switched ↔ s.CreatesInactive e := by
  have ⟨ha, hr⟩ := ht
  cases step_cases hr
  case inl hc =>
    have ⟨hid, _, hc, he⟩ := hc
    refine iff_of_true (fun hn => ?_) fun hc => absurd hc he
    have hx := exclusive_iff.mp (h.switched (hid ▸ hn))
    apply exclusive_iff.mpr
    cases hc
    case inl hc => exact hc ▸ hx
    case inr hc =>
      rw [hc, ConsoleCtrl.swap_active_zero, ConsoleCtrl.swap_active_one, hx]
      cases (s.ctrl.consoles 1).active <;> rfl
  case inr hc =>
    have ⟨ds, reply, hreq, hs⟩ := hc
    have he : e.Creates := hreq ▸ ⟨rfl, rfl⟩
    have hlt : s.idCtrl < 2 := ha he
    have hn : s'.idCtrl ≠ 0 := by
      rw [hs, created_idCtrl hlt]
      exact Nat.succ_ne_zero _
    have hsw : s'.Switched ↔ (s'.ctrl.consoles 0).active = !(s'.ctrl.consoles 1).active :=
      ⟨fun h => exclusive_iff.mp (h hn), fun h _ => exclusive_iff.mpr h⟩
    rw [hsw, hs]
    simp only [created, ConsoleCtrl.attached]
    cases hz : s.idCtrl
    case zero =>
      have ⟨_, hb⟩ := h.before hz
      refine iff_of_true ?_ fun _ h => absurd (hz.symm.trans h) (by decide)
      simp [hb]
    case succ n =>
      have hid₁ : s.idCtrl = 1 := by omega
      have hn₁ : n = 0 := by omega
      have hx := exclusive_iff.mp (h.switched (by omega))
      rw [CreatesInactive, hn₁]
      simp [he, hid₁, hx]

end Transition

namespace Server

-- Exactly one console is active in exactly those runs in which the second console is not created
-- while it is marked as active.
theorem switched_iff_createsInactive :
    Run (Guarded CreatesInactive Transition) (boot fbAddr fbSize) es s ↔
      Run (Reaching Switched Transition) (boot fbAddr fbSize) es s :=
  Run.guarded_iff boot_consistent (fun h ht => ht.switched_iff h) fun h ht => ht.consistent h

-- Tab is pressed between the creation of the two consoles.
theorem none_active : ¬∀ fbAddr fbSize es s,
    Run Transition (boot fbAddr fbSize) es s → s.Switched := by
  intro h
  have h₁ : Transition (boot 0 0) (.request .Factory 0 0 (.granted 0)) _ := ⟨fun _ => by decide, rfl⟩
  have h₂ {s} : Transition s (.poll [Keyboard.Key.TAB.code]) _ := ⟨nofun, rfl⟩
  have h₃ {s : Server} {s'} (hs : s.step (.request .Factory 0 1 (.granted 0)) = some s')
      (hn : s.idCtrl < NUM_CONSOLES) : Transition s _ s' := ⟨fun _ => hn, hs⟩
  have hs := h _ _ _ _ (((Run.refl.snoc h₁).snoc h₂).snoc (h₃ rfl (by decide)))
  exact absurd (hs (by decide)).active (by decide)

end Server
end ConsoleServer
