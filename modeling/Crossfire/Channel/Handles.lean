import Crossfire.Channel.Roles
import Mathlib.Algebra.BigOperators.Group.Finset.Piecewise

/-!
# Handles, wakers and who holds them

The invariant `Held` of every run: an agent in a call holds a handle of its side, the wakers it has
are its own and of that side, the wakers in the registry of a side or on the way out of it are of
that side, the counters count the handles, and `close` runs only on the registry of a side whose
other side is gone. From it: a side without handles never gets one again (`gone_of_callStep`), and
an agent in a call keeps its side open (`Held.cnt_ne_zero`).
-/

set_option autoImplicit false

namespace Crossfire.Channel

open Lib.Interleaving Crossfire.Waker Crossfire.Registry Function

section Fields

variable {ι : Type} [DecidableEq ι] (s : St ι) (i j : ι) (e : Eff) (pc : Pc)

/-! ## What an effect leaves alone -/

/-- A wake changes the waker and perhaps the token of its thread. -/
theorem apply_wakeByRef (w : Nat) : s.apply i (.wakeByRef w) =
    { s with
      waker := update s.waker w { s.waker w with issued := true }
      token := (s.wakeByRef w).token } := by
  unfold St.apply St.wakeByRef
  dsimp only
  split <;> rfl

@[simp] theorem apply_pc : (s.apply i e).pc = s.pc := by
  cases e with
  | wakeByRef w => rw [apply_wakeByRef]
  | _ => rfl

@[simp] theorem apply_handle : (s.apply i e).handle = s.handle := by
  cases e with
  | wakeByRef w => rw [apply_wakeByRef]
  | _ => rfl

@[simp] theorem apply_cnt : (s.apply i e).cnt = s.cnt := by
  cases e with
  | wakeByRef w => rw [apply_wakeByRef]
  | _ => rfl

theorem apply_wakeByRef_waker (w : Nat) : (s.apply i (.wakeByRef w)).waker =
    update s.waker w { s.waker w with issued := true } := by rw [apply_wakeByRef]

theorem nextWaker_le_apply : s.nextWaker ≤ (s.apply i e).nextWaker := by
  cases e with
  | wakeByRef w => rw [apply_wakeByRef]
  | regNew x t | swap x t => exact Nat.le_succ _
  | _ => exact Nat.le_refl _

/-- What is not the state, the number or the history of a waker never changes. -/
theorem apply_fixed {β : Type} (f : WakerInner ι → β)
    (hf : ∀ inner state seq issued,
      f { inner with state := state, seq := seq, issued := issued } = f inner)
    {w : Nat} (hw : w < s.nextWaker) : f ((s.apply i e).waker w) = f (s.waker w) := by
  have hne : w ≠ s.nextWaker := Nat.ne_of_lt hw
  cases e with
  | setState v state => exact field_update f (hf (s.waker v) state _ _) w
  | reg x v => exact field_update f (hf (s.waker v) _ _ _) w
  | wakeByRef v =>
    rw [apply_wakeByRef_waker]
    exact field_update f (hf (s.waker v) _ _ _) w
  | regNew x t | swap x t => exact congrArg f (update_of_ne hne ..)
  | _ => rfl

theorem apply_owner_side {w : Nat} (hw : w < s.nextWaker) :
    ((s.apply i e).waker w).owner = (s.waker w).owner ∧
      ((s.apply i e).waker w).side = (s.waker w).side :=
  ⟨apply_fixed s i e WakerInner.owner (fun _ _ _ _ => rfl) hw,
    apply_fixed s i e WakerInner.side (fun _ _ _ _ => rfl) hw⟩

@[simp] theorem setPc_pc_self : (s.setPc i pc).pc i = pc := update_self ..

@[simp] theorem setPc_pc_of_ne {s : St ι} {i j : ι} {pc : Pc} (h : j ≠ i) :
    (s.setPc i pc).pc j = s.pc j :=
  update_of_ne h ..

theorem setPc_pc : (s.setPc i pc).pc j = if j = i then pc else s.pc j := update_apply ..

/-- Where the agents are after a step of agent `i`. -/
theorem go_pc : ((s.apply i e).setPc i pc).pc j = if j = i then pc else s.pc j := by
  rw [setPc_pc, apply_pc]

@[simp] theorem setPc_waker : (s.setPc i pc).waker = s.waker := rfl
@[simp] theorem setPc_reg : (s.setPc i pc).reg = s.reg := rfl
@[simp] theorem setPc_cell : (s.setPc i pc).cell = s.cell := rfl
@[simp] theorem setPc_cnt : (s.setPc i pc).cnt = s.cnt := rfl
@[simp] theorem setPc_handle : (s.setPc i pc).handle = s.handle := rfl
@[simp] theorem setPc_nextWaker : (s.setPc i pc).nextWaker = s.nextWaker := rfl

end Fields

/-! ## Where wakers come from -/

/-- The waker `w` stands in the registry of side `x`. -/
def St.listed {ι : Type} (s : St ι) (x : Side) (w : Nat) : Prop :=
  w ∈ (s.reg x).queue ∨ s.cell x = some w

section Origins

variable {ι : Type} [DecidableEq ι] [Fintype ι] {cfg : Cfg} {s : St ι} {i : ι} {e : Eff}
  {pc pc' : Pc} {x : Side} {w : Nat}

omit [Fintype ι] in
theorem Eff.Inert.waker (h : e.Inert s) : (s.apply i e).waker = s.waker := by
  cases e with
  | setState w state =>
    have : state = (s.waker w).state := h
    subst this
    exact update_eq_self w s.waker
  | skip | pop | push _ | lock _ | unlock _ | park | ret _ _ => rfl
  | _ => exact h.elim

omit [Fintype ι] in
theorem Eff.Inert.queue (h : e.Inert s) (x : Side) :
    ((s.apply i e).reg x).queue = (s.reg x).queue := by
  cases e with
  | unlock y => exact field_update RegistryMulti.queue (by rfl) x
  | setState _ _ | skip | pop | push _ | lock _ | park | ret _ _ => rfl
  | _ => exact h.elim

omit [Fintype ι] in
theorem Eff.Inert.cell (h : e.Inert s) : (s.apply i e).cell = s.cell := by
  cases e with
  | setState _ _ | skip | pop | push _ | lock _ | unlock _ | park | ret _ _ => rfl
  | _ => exact h.elim

omit [Fintype ι] in
theorem Eff.Inert.listed (h : e.Inert s) : (s.apply i e).listed x w ↔ s.listed x w := by
  unfold St.listed
  rw [h.queue, h.cell]

omit [Fintype ι] in
/-- A section that only removes wakers from the queue. -/
theorem listed_of_registry {r : RegistryMulti} {y : Side} (hsub : r.queue ⊆ (s.reg y).queue)
    (h : (s.apply i (.registry y r)).listed x w) : s.listed x w := by
  rcases h with h | h
  · by_cases hx : x = y
    · subst hx
      simp only [St.apply, St.setReg, update_self] at h
      exact .inl (hsub h)
    · simp only [St.apply, St.setReg, update_of_ne hx] at h
      exact .inl h
  · exact .inr h

/-- A waker in a registry was there before, or the agent put its own or a new one there. -/
theorem Move.listed (h : Move cfg s pc e pc') (hl : (s.apply i e).listed x w) :
    s.listed x w ∨ (pc.side = some x ∧ pc.ready = some w) ∨
      (w = s.nextWaker ∧ w < (s.apply i e).nextWaker ∧ ((s.apply i e).waker w).side = x) := by
  cases h with
  | still _ _ inert | giveUp _ _ _ _ inert => exact .inl (inert.listed.mp hl)
  | take y v r _ dead flows ready pops pops' rings queue hdead seq =>
    refine .inl (listed_of_registry ?_ hl)
    rw [queue]
    exact List.subset_append_of_subset_right _ (List.subset_cons_self _ _)
  | takeCell y v _ flows ready pops pops' rings cell =>
    refine .inl ?_
    rcases hl with hl | hl
    · exact .inl hl
    · by_cases hx : x = y
      · subst hx
        simp [St.apply] at hl
      · simp only [St.apply, update_of_ne hx] at hl
        exact .inr hl
  | drain y r _ dead still queue hdead seq =>
    refine .inl (listed_of_registry ?_ hl)
    rw [queue]
    exact List.subset_append_right _ _
  | clear y v oneshot k hpc still =>
    refine .inl (listed_of_registry ?_ hl)
    have hsub := RegistryMulti.clearQueue_sublist s.alive s.seq (fun v => (s.waker v).state)
      (s.seq v) oneshot (s.reg y).queue
    unfold RegistryMulti.clearWakers
    rw [RegistryMulti.popped_queue hsub]
    exact hsub.subset
  | wake | reset | commit | abandon => exact .inl hl
  | ring v _ flows ready pops rings rings' =>
    unfold St.listed at hl
    rw [apply_wakeByRef] at hl
    exact .inl hl
  -- the three ways in: again, new in the queue, new in the cell
  | register c v hpc kind unlocked =>
    rcases hl with hl | hl
    · by_cases hx : x = c.side
      · subst hx
        simp only [St.apply, St.register, St.setReg, St.setWaker, update_self,
          RegistryMulti.regWaker, List.mem_append, List.mem_singleton] at hl
        rcases hl with hl | rfl
        · exact .inl (.inl hl)
        · refine .inr (.inl ?_)
          rw [hpc]
          exact ⟨rfl, rfl⟩
      · simp only [St.apply, St.register, St.setReg, St.setWaker,
          update_of_ne hx] at hl
        exact .inl (.inl hl)
    · exact .inl (.inr hl)
  | regNew c o fresh hpc kind unlocked =>
    rcases hl with hl | hl
    · by_cases hx : x = c.side
      · subst hx
        simp only [St.apply, St.register, St.setReg, St.setWaker, update_self,
          RegistryMulti.regWaker, List.mem_append, List.mem_singleton] at hl
        rcases hl with hl | rfl
        · exact .inl (.inl hl)
        · refine .inr (.inr ⟨rfl, Nat.lt_succ_self _, ?_⟩)
          simp [St.apply, St.register, St.setWaker, newWaker]
      · simp only [St.apply, St.register, St.setReg, St.setWaker,
          update_of_ne hx] at hl
        exact .inl (.inl hl)
    · exact .inl (.inr hl)
  | swap c o fresh hpc kind =>
    rcases hl with hl | hl
    · exact .inl (.inl hl)
    · by_cases hx : x = c.side
      · subst hx
        simp only [St.apply, update_self, Option.some.injEq] at hl
        subst hl
        refine .inr (.inr ⟨rfl, Nat.lt_succ_self _, ?_⟩)
        simp [St.apply, St.setWaker, newWaker]
      · simp only [St.apply, update_of_ne hx] at hl
        exact .inl (.inr hl)

omit [DecidableEq ι] in
/-- Only a registration gives the agent a waker to rely on. -/
theorem Move.flows (h : Move cfg s pc e pc') : Flows pc pc' ∨
    ∃ c o fresh v, pc = .reg c o fresh ∧ pc' = .double c v ∧
      (o = some v ∧ fresh = false ∧ e = .reg c.side v ∧ cfg.kind c.side = .multi ∨
        v = s.nextWaker ∧ (e = .regNew c.side c.thin ∧ cfg.kind c.side = .multi ∨
          e = .swap c.side c.thin ∧ cfg.kind c.side = .single)) := by
  cases h with
  | still _ _ _ still | drain _ _ _ _ still | clear _ _ _ _ _ still | commit _ _ still
  | abandon _ _ still => exact .inl still.toFlows
  | giveUp _ _ _ _ _ flows | take _ _ _ _ _ flows | takeCell _ _ _ flows | wake _ _ _ _ flows
  | ring _ _ flows | reset _ _ flows => exact .inl flows
  | register c v hpc kind =>
    exact .inr ⟨c, some v, false, v, hpc, rfl, .inl ⟨rfl, rfl, rfl, kind⟩⟩
  | regNew c o fresh hpc kind =>
    exact .inr ⟨c, o, fresh, s.nextWaker, hpc, rfl, .inr ⟨rfl, .inl ⟨rfl, kind⟩⟩⟩
  | swap c o fresh hpc kind =>
    exact .inr ⟨c, o, fresh, s.nextWaker, hpc, rfl, .inr ⟨rfl, .inr ⟨rfl, kind⟩⟩⟩

/-- A waker of the agent is one it had, or a new one of its side. -/
theorem Move.mine (h : Move cfg s pc e pc') (hw : w ∈ pc'.mine) :
    w ∈ pc.mine ∨ (w < (s.apply i e).nextWaker ∧ ((s.apply i e).waker w).owner = i ∧
      pc.side = some ((s.apply i e).waker w).side) := by
  rcases h.flows with hflows | ⟨c, o, fresh, v, rfl, rfl, hreg⟩
  · exact .inl (hflows.mine hw)
  · obtain rfl := List.mem_singleton.mp hw
    rcases hreg with ⟨rfl, _⟩ | ⟨rfl, ⟨rfl, _⟩ | ⟨rfl, _⟩⟩
    · exact .inl (List.mem_singleton_self _)
    · refine .inr ⟨Nat.lt_succ_self _, ?_⟩
      simp [St.apply, St.register, St.setWaker, newWaker, Pc.side, Pc.call]
    · refine .inr ⟨Nat.lt_succ_self _, ?_⟩
      simp [St.apply, St.setWaker, newWaker, Pc.side, Pc.call]

omit [DecidableEq ι] in
theorem Move.side (h : Move cfg s pc e pc') : pc'.side = none ∨ pc'.side = pc.side := by
  rcases h.flows with hflows | ⟨c, o, fresh, v, rfl, rfl, _⟩
  · exact hflows.side
  · exact .inr rfl

/-- The waker an agent relies on is one it relied on, one it was about to register, or a new one. -/
theorem Move.own (h : Move cfg s pc e pc') (hw : pc'.own = some w) :
    pc.own = some w ∨ pc.ready = some w ∨
      (w = s.nextWaker ∧ ((s.apply i e).waker w).state = .init) := by
  rcases h.flows with hflows | ⟨c, o, fresh, v, rfl, rfl, hreg⟩
  · rcases hflows.own with hnone | hsame
    · rw [hnone] at hw; cases hw
    · exact .inl (hsame ▸ hw)
  · cases hw
    rcases hreg with ⟨rfl, rfl, _⟩ | ⟨rfl, ⟨rfl, _⟩ | ⟨rfl, _⟩⟩
    · exact .inr (.inl rfl)
    · exact .inr (.inr ⟨rfl, by simp [St.apply, St.register, St.setWaker, newWaker]⟩)
    · exact .inr (.inr ⟨rfl, by simp [St.apply, St.setWaker, newWaker]⟩)

/-- A waker about to be registered again has just been reset. -/
theorem Move.ready (h : Move cfg s pc e pc') (hw : pc'.ready = some w) :
    pc.own = some w ∧ ((s.apply i e).waker w).state = .init ∧
      ((∃ c, pc = .reset c w) ∨ (s.waker w).state = .woken) := by
  cases h with
  | still _ _ _ still | drain _ _ _ _ still | clear _ _ _ _ _ still | commit _ _ still
  | abandon _ _ still => rw [still.ready] at hw; cases hw
  | giveUp _ _ _ _ _ _ ready | take _ _ _ _ _ _ ready | takeCell _ _ _ _ ready
  | wake _ _ _ _ _ ready | ring _ _ _ ready => rw [ready] at hw; cases hw
  | reset v _ flows own own' ready pops rings woken =>
    rcases ready with hnone | hsame
    · rw [hnone] at hw; cases hw
    · rw [hsame] at hw
      cases hw
      exact ⟨own, by simp [St.apply, St.setWaker], woken⟩
  | register | regNew | swap => cases hw

omit [DecidableEq ι] in
/-- A waker on the way out was there before or stood in the registry. -/
theorem Move.pops (h : Move cfg s pc e pc') (hw : pc'.pops = some (x, w)) :
    pc.pops = some (x, w) ∨ s.listed x w := by
  cases h with
  | still _ _ _ still | drain _ _ _ _ still | clear _ _ _ _ _ still | commit _ _ still
  | abandon _ _ still => exact .inl (still.pops ▸ hw)
  | ring _ _ _ _ pops | reset _ _ _ _ _ _ pops => exact .inl (pops ▸ hw)
  | take y v r _ dead flows ready pops pops' rings queue =>
    rw [pops'] at hw
    cases hw
    exact .inr (.inl (by rw [queue]; simp))
  | takeCell y v _ flows ready pops pops' rings cell =>
    rw [pops'] at hw
    cases hw
    exact .inr (.inr cell)
  | giveUp _ _ _ _ _ _ _ _ pops' | wake _ _ _ _ _ _ _ pops' => rw [pops'] at hw; cases hw
  | register | regNew | swap => cases hw

/-- How the state of the waker `v` changes in a step from `pc` to `pc'`. -/
inductive Turns (s : St ι) (pc pc' : Pc) (v : Nat) : WakerState → Prop
  | same : Turns s pc pc' v (s.waker v).state
  | woken (x : Side) (pops : pc.pops = some (x, v)) (pops' : pc'.pops = none)
      (rings' : pc'.rings = some v) : Turns s pc pc' v .woken
  | closed (x : Side) (pops : pc.pops = some (x, v)) (pops' : pc'.pops = none)
      (closes : pc.closes = some x) (rings' : pc'.rings = some v) : Turns s pc pc' v .closed
  | reset (own : pc.own = some v) (own' : pc'.own = none) : Turns s pc pc' v .init
  | commit (own : pc.own = some v) (init : (s.waker v).state = .init) : Turns s pc pc' v .waiting
  | abandon (mine : v ∈ pc.mine) (own' : pc'.own = none) (ready' : pc'.ready = none) :
      Turns s pc pc' v .closed
  | new (fresh : v = s.nextWaker) : Turns s pc pc' v .init

omit [Fintype ι] in
theorem setState_state (w v : Nat) (state : WakerState) :
    ((s.apply i (.setState w state)).waker v).state =
      if v = w then state else (s.waker v).state := by
  show (update s.waker w _ v).state = _
  rw [update_apply]
  split_ifs <;> rfl

/-- What a step does to the state of a waker. -/
theorem Move.turns (h : Move cfg s pc e pc') (v : Nat) :
    Turns s pc pc' v ((s.apply i e).waker v).state := by
  cases h with
  | still _ _ inert | giveUp _ _ _ _ inert => rw [inert.waker]; exact .same
  | take | takeCell | drain | clear => exact .same
  | wake x w state _ flows ready pops pops' rings rings' woken =>
    rw [setState_state]
    split_ifs with hv
    · subst hv
      rcases woken with rfl | ⟨rfl, hcloses⟩
      · exact .woken x pops pops' rings'
      · exact .closed x pops pops' hcloses rings'
    · exact .same
  | ring w _ =>
    rw [apply_wakeByRef_waker]
    by_cases hv : v = w
    · subst hv; rw [update_self]; exact .same
    · rw [update_of_ne hv]; exact .same
  | reset w _ flows own own' =>
    rw [setState_state]
    split_ifs with hv
    · subst hv; exact .reset own own'
    · exact .same
  | commit w _ still own =>
    rw [setState_state]
    split_ifs with hv
    · subst hv
      have hsame : Turns s pc pc' v (s.waker v).state := .same
      cases hst : (s.waker v).state with
      | init => exact .commit own hst
      | _ => rw [hst] at hsame; exact hsame
    · exact .same
  | abandon w _ still mine own' =>
    rw [setState_state]
    split_ifs with hv
    · subst hv; exact .abandon mine own' still.ready
    · exact .same
  | register c w =>
    by_cases hv : v = w
    · subst hv
      simp only [St.apply, St.register, St.setWaker, update_self]
      exact .same
    · simp only [St.apply, St.register, St.setWaker, update_of_ne hv]
      exact .same
  | regNew c o fresh =>
    by_cases hv : v = s.nextWaker
    · subst hv
      simp only [St.apply, St.register, St.setWaker, update_self]
      exact .new rfl
    · simp only [St.apply, St.register, St.setWaker, update_of_ne hv]
      exact .same
  | swap c o fresh =>
    by_cases hv : v = s.nextWaker
    · subst hv
      simp only [St.apply, St.setWaker, update_self]
      exact .new rfl
    · simp only [St.apply, St.setWaker, update_of_ne hv]
      exact .same

/-- `Done` is a return value and never the state of a waker. -/
theorem Move.notDone (h : Move cfg s pc e pc') (hs : ∀ v, (s.waker v).state ≠ .done) (v : Nat) :
    ((s.apply i e).waker v).state ≠ .done := by
  have hturns := h.turns (i := i) v
  generalize ((s.apply i e).waker v).state = state at hturns
  cases hturns with
  | same => exact hs v
  | _ => nofun

omit [DecidableEq ι] in
/-- Nobody begins to close in a step. -/
theorem closes_of_pcStep (h : PcStep cfg s i pc e pc') :
    pc'.closes = none ∨ pc'.closes = pc.closes := by
  cases h with
  | recv _ _ _ _ _ _ _ _ _ goes | send _ _ _ _ _ _ _ _ _ goes | abandonFire _ _ _ _ _ goes =>
    cases goes with
    | dummy kind => exact .inl (Cont.closes_pc _)
    | fire kind => exact .inl rfl
  | closedSettle _ _ _ _ _ _ goes | snoozeWoken _ _ _ _ goes | state _ _ _ goes =>
    rcases goes with _ | _ | _ | ⟨_, _, goes⟩
    · exact .inl rfl
    · exact .inl rfl
    · exact .inl rfl
    · cases goes <;> exact .inl rfl
  | congestNot c w _ goes | snoozeDone c w _ goes => cases goes <;> exact .inl rfl
  | reuseWoken | reuse | clearSkip | clearLock | abandonErr => exact .inl (Cont.closes_pc _)
  | fire x f k _ _ step =>
    cases step with
    | skip _ _ _ _ _ _ goes | wakeByRef _ _ _ _ goes =>
      cases goes <;> first | exact .inl (Cont.closes_pc _) | exact .inl rfl
    | _ => first | exact .inl (Cont.closes_pc _) | exact .inl rfl
  | close x f _ _ step =>
    cases step with
    | store => exact .inl rfl
    | _ => exact .inr rfl
  | _ => exact .inl rfl

end Origins

/-! ## The invariant -/

section Invariant

variable {ι : Type} [DecidableEq ι] [Fintype ι]

/-- A handle counts on its own side. -/
def Side.weight (x : Side) (handle : Option Side) : Nat := if handle = some x then 1 else 0

@[simp] theorem Side.weight_self (x : Side) : x.weight (some x) = 1 := if_pos rfl

@[simp] theorem Side.weight_none (x : Side) : x.weight none = 0 := if_neg nofun

theorem Side.weight_of_ne {x y : Side} (h : y ≠ x) : x.weight (some y) = 0 :=
  if_neg fun heq => h (Option.some.inj heq)

/-- Who holds what. -/
structure Held (s : St ι) : Prop where
  fits : ∀ i, (s.pc i).Fits
  /-- A call has a handle. -/
  side : ∀ i x, (s.pc i).side = some x → s.handle i = some x
  mine : ∀ i w, w ∈ (s.pc i).mine →
    w < s.nextWaker ∧ (s.waker w).owner = i ∧ s.handle i = some (s.waker w).side
  listed : ∀ x w, s.listed x w → w < s.nextWaker ∧ (s.waker w).side = x
  pops : ∀ i x w, (s.pc i).pops = some (x, w) → w < s.nextWaker ∧ (s.waker w).side = x
  count : ∀ x, s.cnt x = ∑ i, x.weight (s.handle i)
  closing : ∀ i x, (s.pc i).closes = some x → s.cnt x.other = 0

variable {cfg : Cfg} {s t : St ι} {i : ι} {e : Eff} {pc' : Pc} {x : Side}

omit [DecidableEq ι] in
/-- A handle keeps the counter of its side up. -/
theorem Held.cnt_ne_zero (h : Held s) (hi : s.handle i = some x) : s.cnt x ≠ 0 := by
  have hle := weight_le_sum x.weight s.handle i
  rw [← h.count x, hi, Side.weight_self] at hle
  omega

omit [DecidableEq ι] in
/-- A waker belongs to one agent. -/
theorem Held.owner_unique (h : Held s) {i j : ι} {w : Nat} (hi : w ∈ (s.pc i).mine)
    (hj : w ∈ (s.pc j).mine) : i = j :=
  (h.mine i w hi).2.1.symm.trans (h.mine j w hj).2.1

omit [DecidableEq ι] in
theorem Held.handle_ne (h : Held s) (hx : s.cnt x = 0) (i : ι) : s.handle i ≠ some x :=
  fun hi => h.cnt_ne_zero hi hx

/-- On a side with at most one handle, the agents with a handle are one. -/
theorem Held.handle_unique (h : Held s) {i j : ι} (hx : s.cnt x ≤ 1) (hi : s.handle i = some x)
    (hj : s.handle j = some x) : i = j := by
  by_contra hij
  have hle := weight_add_weight_le_sum x.weight s.handle hij
  rw [← h.count x, hi, hj, Side.weight_self] at hle
  omega

/-- An agent goes on. -/
theorem Held.setPc (h : Held s) (hfits : pc'.Fits)
    (hside : ∀ x, pc'.side = some x → s.handle i = some x)
    (hmine : ∀ w ∈ pc'.mine,
      w < s.nextWaker ∧ (s.waker w).owner = i ∧ s.handle i = some (s.waker w).side)
    (hpops : ∀ x w, pc'.pops = some (x, w) → w < s.nextWaker ∧ (s.waker w).side = x)
    (hcloses : ∀ x, pc'.closes = some x → s.cnt x.other = 0) : Held (s.setPc i pc') where
  fits j := by
    by_cases hj : j = i
    · subst hj; rwa [setPc_pc_self]
    · rw [setPc_pc_of_ne hj]; exact h.fits j
  side j x hx := by
    by_cases hj : j = i
    · subst hj; rw [setPc_pc_self] at hx; exact hside x hx
    · rw [setPc_pc_of_ne hj] at hx; exact h.side j x hx
  mine j w hw := by
    by_cases hj : j = i
    · subst hj; rw [setPc_pc_self] at hw; exact hmine w hw
    · rw [setPc_pc_of_ne hj] at hw; exact h.mine j w hw
  listed := h.listed
  pops j x w hw := by
    by_cases hj : j = i
    · subst hj; rw [setPc_pc_self] at hw; exact hpops x w hw
    · rw [setPc_pc_of_ne hj] at hw; exact h.pops j x w hw
  count := h.count
  closing j x hx := by
    by_cases hj : j = i
    · subst hj; rw [setPc_pc_self] at hx; exact hcloses x hx
    · rw [setPc_pc_of_ne hj] at hx; exact h.closing j x hx

/-- The effect of a step, with the agent still where it was. -/
theorem Held.apply (h : Held s) (hm : Move cfg s (s.pc i) e pc') : Held (s.apply i e) where
  fits j := by rw [apply_pc]; exact h.fits j
  side j x hx := by rw [apply_pc] at hx; rw [apply_handle]; exact h.side j x hx
  mine j w hw := by
    rw [apply_pc] at hw
    obtain ⟨hlt, howner, hside⟩ := h.mine j w hw
    obtain ⟨howner', hside'⟩ := apply_owner_side s i e hlt
    rw [apply_handle, howner', hside']
    exact ⟨hlt.trans_le (nextWaker_le_apply s i e), howner, hside⟩
  listed x w hw := by
    rcases hm.listed hw with hw | ⟨hx, hw⟩ | hnew
    · obtain ⟨hlt, hside⟩ := h.listed x w hw
      rw [(apply_owner_side s i e hlt).2]
      exact ⟨hlt.trans_le (nextWaker_le_apply s i e), hside⟩
    · obtain ⟨hlt, _, hside⟩ := h.mine i w (Pc.ready_mem_mine hw)
      rw [h.side i x hx, Option.some.injEq] at hside
      rw [(apply_owner_side s i e hlt).2]
      exact ⟨hlt.trans_le (nextWaker_le_apply s i e), hside.symm⟩
    · exact hnew.2
  pops j x w hw := by
    rw [apply_pc] at hw
    obtain ⟨hlt, hside⟩ := h.pops j x w hw
    rw [(apply_owner_side s i e hlt).2]
    exact ⟨hlt.trans_le (nextWaker_le_apply s i e), hside⟩
  count x := by rw [apply_cnt, apply_handle]; exact h.count x
  closing j x hx := by rw [apply_pc] at hx; rw [apply_cnt]; exact h.closing j x hx

/-- A step of an agent keeps the invariant. -/
theorem Held.go (h : Held s) (hstep : PcStep cfg s i (s.pc i) e pc') :
    Held ((s.apply i e).setPc i pc') := by
  have hm : Move cfg s (s.pc i) e pc' := move_of_pcStep hstep (h.fits i)
  refine (h.apply hm).setPc (fits_of_pcStep hstep (h.fits i)) ?_ ?_ ?_ ?_
  · intro x hx
    rw [apply_handle]
    rcases hm.side with hnone | hsame
    · rw [hnone] at hx; cases hx
    · exact h.side i x (hsame ▸ hx)
  · intro w hw
    rcases hm.mine hw with hw | ⟨hlt, howner, hside⟩
    · have := (h.apply hm).mine i w
      rw [apply_pc] at this
      exact this hw
    · exact ⟨hlt, howner, by rw [apply_handle]; exact h.side i _ hside⟩
  · intro x w hw
    have hold : w < s.nextWaker ∧ (s.waker w).side = x := by
      rcases hm.pops hw with hw | hw
      · exact h.pops i x w hw
      · exact h.listed x w hw
    rw [(apply_owner_side s i e hold.1).2]
    exact ⟨hold.1.trans_le (nextWaker_le_apply s i e), hold.2⟩
  · intro x hx
    rw [apply_cnt]
    rcases closes_of_pcStep hstep with hnone | hsame
    · rw [hnone] at hx; cases hx
    · exact h.closing i x (hsame ▸ hx)

/-! ## The starts and ends of calls -/

omit [Fintype ι] in
theorem startPc_side (c : Call) : (startPc c).side = some c.side := by
  fun_cases startPc c <;> rfl

theorem startPc_mine (c : Call) : (startPc c).mine = [] := by
  fun_cases startPc c <;> rfl

theorem startPc_pops (c : Call) : (startPc c).pops = none := by
  fun_cases startPc c <;> rfl

theorem startPc_closes (c : Call) : (startPc c).closes = none := by
  fun_cases startPc c <;> rfl

/-- An agent that goes on with no more than it had. -/
theorem Held.setPc_of_flows (h : Held s) (hfits : pc'.Fits) (hflows : Flows (s.pc i) pc')
    (hpops : pc'.pops = none) (hcloses : pc'.closes = none) : Held (s.setPc i pc') := by
  refine h.setPc hfits ?_ ?_ ?_ ?_
  · intro x hx
    rcases hflows.side with hnone | hsame
    · rw [hnone] at hx; cases hx
    · exact h.side i x (hsame ▸ hx)
  · intro w hw
    exact h.mine i w (hflows.mine hw)
  · intro x w hw
    rw [hpops] at hw; cases hw
  · intro x hx
    rw [hcloses] at hx; cases hx

omit [DecidableEq ι] in
theorem Held.countMsg (h : Held s) (c : Call) : Held (s.countMsg c) := by
  unfold St.countMsg
  split_ifs
  · exact ⟨h.fits, h.side, h.mine, h.listed, h.pops, h.count, h.closing⟩
  · exact h

omit [DecidableEq ι] [Fintype ι] in
theorem setReg_queue {r : RegistryMulti} (h : r.queue = (s.reg x).queue) (y : Side) :
    ((s.setReg x r).reg y).queue = (s.reg y).queue := by
  by_cases hy : y = x
  · subst hy
    simpa [St.setReg] using h
  · simp [St.setReg, update_of_ne hy]

omit [DecidableEq ι] in
/-- A section that keeps the queue. -/
theorem Held.setReg (h : Held s) {r : RegistryMulti} (hqueue : r.queue = (s.reg x).queue) :
    Held (s.setReg x r) := by
  refine ⟨h.fits, h.side, h.mine, fun y w hw => h.listed y w ?_, h.pops, h.count, h.closing⟩
  unfold St.listed at hw
  rwa [setReg_queue hqueue] at hw

/-- A handle is dropped. -/
theorem Held.dropHandle (h : Held s) (hpc : s.pc i = .idle) (hi : s.handle i = some x) :
    Held (s.dropHandle x i) := by
  have hkeep (j : ι) (y : Side) (hj : s.handle j = some y) (hne : j ≠ i) :
      (s.dropHandle x i).handle j = some y := by
    simpa [St.dropHandle, update_of_ne hne] using hj
  refine ⟨h.fits, ?_, ?_, h.listed, h.pops, ?_, ?_⟩
  · intro j y hy
    have hne : j ≠ i := by
      rintro rfl
      have hy' : (s.pc j).side = some y := hy
      rw [hpc] at hy'
      cases hy'
    exact hkeep j y (h.side j y hy) hne
  · intro j w hw
    have hne : j ≠ i := by
      rintro rfl
      have hw' : w ∈ (s.pc j).mine := hw
      rw [hpc] at hw'
      cases hw'
    obtain ⟨hlt, howner, hside⟩ := h.mine j w hw
    exact ⟨hlt, howner, hkeep j _ hside hne⟩
  · intro y
    have hsum := sum_update y.weight s.handle i none
    rw [← h.count y, hi, Side.weight_none] at hsum
    by_cases hy : y = x
    · subst hy
      rw [Side.weight_self] at hsum
      simp only [St.dropHandle, update_self]
      omega
    · rw [Side.weight_of_ne (Ne.symm hy)] at hsum
      simp only [St.dropHandle, update_of_ne hy]
      omega
  · intro j y hy
    have hzero : s.cnt y.other = 0 := h.closing j y hy
    by_cases hyx : y.other = x
    · rw [← hyx]
      simp [St.dropHandle, hzero]
    · simpa [St.dropHandle, update_of_ne hyx] using hzero

/-- A handle is cloned. -/
theorem Held.addHandle (h : Held s) {j : ι} (hi : s.handle i = some x) (hj : s.handle j = none) :
    Held (s.addHandle x j) := by
  have hkeep (k : ι) (y : Side) (hk : s.handle k = some y) :
      (s.addHandle x j).handle k = some y := by
    have hne : k ≠ j := by
      rintro rfl
      rw [hj] at hk
      cases hk
    simpa [St.addHandle, update_of_ne hne] using hk
  refine ⟨h.fits, fun k y hy => hkeep k y (h.side k y hy), ?_, h.listed, h.pops, ?_, ?_⟩
  · intro k w hw
    obtain ⟨hlt, howner, hside⟩ := h.mine k w hw
    exact ⟨hlt, howner, hkeep k _ hside⟩
  · intro y
    have hsum := sum_update y.weight s.handle j (some x)
    rw [← h.count y, hj, Side.weight_none] at hsum
    by_cases hy : y = x
    · subst hy
      rw [Side.weight_self] at hsum
      simp only [St.addHandle, update_self]
      omega
    · rw [Side.weight_of_ne (Ne.symm hy)] at hsum
      simp only [St.addHandle, update_of_ne hy]
      omega
  · intro k y hy
    have hzero : s.cnt y.other = 0 := h.closing k y hy
    have hne : y.other ≠ x := by
      rintro rfl
      exact h.cnt_ne_zero hi hzero
    simpa [St.addHandle, update_of_ne hne] using hzero

theorem Side.other_other (x : Side) : x.other.other = x := by cases x <;> rfl

/-- Where the close of a registry starts. -/
theorem Closes.held (h : Held t) (hgoes : Closes cfg x.other pc') (hcnt : t.cnt x = 0) :
    Held (t.setPc i pc') := by
  cases hgoes with
  | multi kind =>
    refine h.setPc trivial nofun nofun nofun fun y hy => ?_
    cases hy
    rwa [Side.other_other]
  | single | dummy => exact h.setPc trivial nofun nofun nofun nofun

/-- The start of a call. -/
theorem Held.call {a : Act ι} (h : Held s) (hstep : CallStep cfg s a t) : Held t := by
  cases hstep with
  | call i c pc handle msg =>
    refine (h.countMsg c).setPc (startPc_fits c) ?_ ?_ ?_ ?_
    · intro x hx
      rw [startPc_side, Option.some.injEq] at hx
      subst hx
      unfold St.countMsg
      split_ifs <;> exact handle
    · intro w hw
      rw [startPc_mine] at hw; cases hw
    · intro x w hw
      rw [startPc_pops] at hw; cases hw
    · intro x hx
      rw [startPc_closes] at hx; cases hx
  | poll i c c' w _ pc next =>
    have hpc : (s.countMsg c').pc = s.pc := by unfold St.countMsg; split_ifs <;> rfl
    refine (h.countMsg c').setPc_of_flows next.fits ?_ ?_ ?_
    · rw [hpc]
      cases next <;> rcases pc with pc | pc <;> rw [pc] <;>
        exact ⟨.inr rfl, List.Subset.refl _, .inr rfl⟩
    · cases next <;> rfl
    · cases next <;> rfl
  | dropFuture i c w pc kind =>
    refine h.setPc_of_flows ⟨trivial, rfl⟩ ?_ rfl rfl
    rcases pc with pc | pc <;> rw [pc] <;>
      exact ⟨.inr rfl, List.cons_subset.mpr ⟨List.mem_singleton_self _, List.Subset.refl _⟩,
        .inl rfl⟩
  | dropSingle i c w pc kind =>
    refine h.setPc_of_flows trivial ?_ rfl rfl
    rcases pc with pc | pc <;> rw [pc] <;> exact ⟨.inr rfl, List.Subset.refl _, .inl rfl⟩
  | dropHandle i x pc handle shared => exact h.dropHandle pc handle
  | dropLast i x _ pc handle alone goes =>
    refine Closes.held (h.dropHandle pc handle) goes ?_
    simp only [St.dropHandle, update_self]
    omega
  | clone i j x source slot kind => exact h.addHandle source slot
  | readTaken i m _ pc goes =>
    have hflows : Still (s.pc i) _ := goes.still (by rw [pc]; rfl) (List.nil_subset _) (.inl rfl)
      (by rw [pc]; rfl) (by rw [pc]; rfl)
    refine h.setPc_of_flows (goes.fits trivial) hflows.toFlows ?_ ?_
    · rw [hflows.pops, pc]; rfl
    · cases goes <;> rfl
  | readToken i pc =>
    refine h.setPc_of_flows trivial ?_ rfl rfl
    rw [pc]
    exact ⟨.inr rfl, List.Subset.refl _, .inl rfl⟩
  | dropToken i m pc =>
    refine h.setPc_of_flows trivial ?_ rfl rfl
    exact ⟨.inl rfl, List.nil_subset _, .inl rfl⟩
  | regSelect | cancelSelect => exact h.setReg rfl

/-- A new channel has a handle on each side. -/
theorem held_new {a b : ι} (hab : a ≠ b) : Held (St.new a b) := by
  refine ⟨fun _ => trivial, nofun, nofun, ?_, nofun, ?_, nofun⟩
  · rintro x w (hw | hw) <;> cases hw
  · -- each side has one agent with a handle
    have hone (x : Side) (c : ι)
        (hc : ∀ i, x.weight ((St.new a b).handle i) = if i = c then 1 else 0) :
        (∑ i, x.weight ((St.new a b).handle i)) = 1 := by
      simp only [hc, Finset.sum_ite_eq', Finset.mem_univ, if_true]
    intro x
    cases x with
    | tx =>
      refine (hone .tx a fun i => ?_).symm
      by_cases ha : i = a
      · simp [St.new, ha]
      · by_cases hb : i = b <;> simp [St.new, ha, hb, Side.weight]
    | rx =>
      refine (hone .rx b fun i => ?_).symm
      by_cases hb : i = b
      · simp [St.new, hb, Ne.symm hab]
      · by_cases ha : i = a <;> simp [St.new, ha, hb, hab, Side.weight]

theorem Held.step {a : Act ι} (h : Held s) (hstep : step cfg s a = some t) : Held t := by
  rcases step_cases hstep with ⟨i, choice, e, pc', rfl, hpc, rfl⟩ | hcall
  · exact h.go hpc
  · exact h.call hcall

/-- The invariant holds in every run. -/
theorem held_of_reach {ok : St ι → Act ι → Prop} (h : Reach (system cfg) ok s) : Held s := by
  refine h.invariant ?_ fun _ _ _ hs _ hstep => hs.step hstep
  rintro _ ⟨a, b, hab, rfl⟩
  exact held_new hab

/-! ## A side that is gone -/

/-- A side without handles never gets one again. -/
theorem gone_of_callStep {a : Act ι} (h : Held s) (hcall : CallStep cfg s a t)
    (hx : s.cnt x = 0) : t.cnt x = 0 := by
  cases hcall with
  | call i c | poll i c c' w pc' =>
    unfold St.countMsg
    split_ifs <;> exact hx
  | dropHandle i y pc handle shared | dropLast i y pc' pc handle =>
    have hne : x ≠ y := by
      rintro rfl
      exact h.cnt_ne_zero handle hx
    simpa [St.dropHandle, update_of_ne hne] using hx
  | clone i j y source slot kind =>
    have hne : x ≠ y := by
      rintro rfl
      exact h.cnt_ne_zero source hx
    simpa [St.addHandle, update_of_ne hne] using hx
  | _ => exact hx

end Invariant

end Crossfire.Channel
