import Crossfire.Channel.Handles

/-!
# A waker that waits is in the hands of somebody

A waker that its agent relies on is either woken, or it is in one place from which it will be woken:
it stands in its registry, or one agent has taken it out and not yet changed its state
(`St.placed`). Once it is woken, `wake_by_ref` was called or is about to be. This is the invariant
`Placed`.

`_clear_wakers` finds the waker it removes by its `u32` sequence number. The invariant holds in the
runs in which that number names one live waker of the queue (`clearOk`).
-/

set_option autoImplicit false

namespace Crossfire.Channel

open Lib.Interleaving Crossfire.Waker Crossfire.Registry Function

/-- The waker stands in a registry, or an agent has taken it out and not yet woken it. -/
def St.placed {ι : Type} (s : St ι) (w : Nat) : Prop :=
  (∃ x, s.listed x w) ∨ ∃ j x, (s.pc j).pops = some (x, w)

/-- The waker of which an agent knows that it is woken. -/
def Pc.knows (cfg : Cfg) : Pc → Option Nat
  | .reset _ w => some w
  | .spin c (some w) => if c.isBlocking = true ∧ cfg.kind c.side = .multi then some w else none
  | .closed _ w seen => if seen.isWoken then some w else none
  | _ => none

/-- The registry an agent is about to remove a waker from, and the waker. -/
def Pc.clears : Pc → Option (Side × Nat)
  | .clearLock x w _ _ => some (x, w)
  | _ => none

theorem Cont.Fits.knows {cfg : Cfg} {k : Cont} (h : k.Fits) : k.pc.knows cfg = none := by
  cases k with
  | spin c o => obtain ⟨_, rfl⟩ := h; rfl
  | _ => rfl

theorem Pc.own_of_knows {cfg : Cfg} {pc : Pc} {w : Nat} (h : pc.knows cfg = some w) :
    pc.own = some w := by
  unfold Pc.knows at h
  split at h
  · exact h
  · split_ifs at h
    exact h
  · split_ifs at h
    exact h
  · cases h

theorem Pc.ready_of_own {pc : Pc} {w : Nat} (h : pc.own = some w) : pc.ready = none := by
  cases pc with
  | reg c o fresh => cases h
  | _ => rfl

theorem Pc.ready_of_pops {pc : Pc} {p : Side × Nat} (h : pc.pops = some p) : pc.ready = none := by
  cases pc with
  | fire x f k => rfl
  | close x f => rfl
  | _ => cases h

section Condition

variable {ι : Type} [Fintype ι]

/-- `_clear_wakers` meets no other live waker with the number it looks for. -/
def clearOk (s : St ι) : Act ι → Prop
  | .go i _ =>
    ∀ p ∈ (s.pc i).clears, ∀ v ∈ (s.reg p.1).queue, s.alive v = true → s.seq v = s.seq p.2 →
      v = p.2
  | .call _ _ | .poll _ _ | .dropFuture _ | .dropHandle _ | .clone _ _ | .readSelect _
  | .dropToken _ | .regSelect _ _ | .cancelSelect _ => True

instance (s : St ι) : (a : Act ι) → Decidable (clearOk s a)
  | .go i _ => inferInstanceAs (Decidable (∀ p ∈ (s.pc i).clears, ∀ v ∈ (s.reg p.1).queue,
      s.alive v = true → s.seq v = s.seq p.2 → v = p.2))
  | .call _ _ | .poll _ _ | .dropFuture _ | .dropHandle _ | .clone _ _ | .readSelect _
  | .dropToken _ | .regSelect _ _ | .cancelSelect _ => instDecidableTrue

theorem St.alive_of_own {s : St ι} {i : ι} {w : Nat} (h : (s.pc i).own = some w) :
    s.alive w = true :=
  decide_eq_true ⟨i, Pc.mine_subset_strong _ (Pc.own_mem_mine h)⟩

end Condition

/-! ## What one step keeps -/

section Keeps

variable {ι : Type} [DecidableEq ι] [Fintype ι] {cfg : Cfg} {s : St ι} {i : ι} {e : Eff}
  {pc pc' : Pc} {x : Side} {w : Nat}

omit [Fintype ι] in
theorem registry_queue (y : Side) (r : RegistryMulti) :
    ((s.apply i (.registry y r)).reg x).queue = if x = y then r.queue else (s.reg x).queue := by
  show (update s.reg y r x).queue = _
  rw [update_apply]
  split_ifs <;> rfl

/-- A live waker that is not woken stays in its registry unless it is taken out by an agent that
will wake it. The registry of a single waiter forgets the waker when the waiter registers a new
one. -/
theorem Move.keeps (h : Move cfg s pc e pc') (hl : s.listed x w) (halive : s.alive w = true)
    (hstate : (s.waker w).state.isWoken = false)
    (hclear : ∀ v, pc.clears = some (x, v) → w ∈ (s.reg x).queue → s.seq w ≠ s.seq v) :
    (s.apply i e).listed x w ∨ pc'.pops = some (x, w) ∨
      (cfg.kind x = .single ∧ pc.side = some x ∧ pc.own = none) := by
  have hnotDead {dead : List Nat} (hdead : ∀ v ∈ dead, s.alive v = false) : w ∉ dead := by
    intro hw
    rw [hdead w hw] at halive
    cases halive
  cases h with
  | still _ _ inert | giveUp _ _ _ _ inert => exact .inl (inert.listed.mpr hl)
  | take y v r _ dead flows ready pops pops' rings queue hdead seq =>
    rcases hl with hl | hl
    · by_cases hx : x = y
      · subst hx
        rw [queue, List.mem_append, List.mem_cons] at hl
        rcases hl with hl | rfl | hl
        · exact absurd hl (hnotDead hdead)
        · exact .inr (.inl pops')
        · exact .inl (.inl (by rwa [registry_queue, if_pos rfl]))
      · exact .inl (.inl (by rwa [registry_queue, if_neg hx]))
    · exact .inl (.inr hl)
  | takeCell y v _ flows ready pops pops' rings cell =>
    rcases hl with hl | hl
    · exact .inl (.inl hl)
    · by_cases hx : x = y
      · subst hx
        rw [cell, Option.some.injEq] at hl
        subst hl
        exact .inr (.inl pops')
      · exact .inl (.inr (by simpa [St.apply, update_of_ne hx] using hl))
  | drain y r _ dead still queue hdead seq =>
    rcases hl with hl | hl
    · by_cases hx : x = y
      · subst hx
        rw [queue, List.mem_append] at hl
        rcases hl with hl | hl
        · exact absurd hl (hnotDead hdead)
        · exact .inl (.inl (by rwa [registry_queue, if_pos rfl]))
      · exact .inl (.inl (by rwa [registry_queue, if_neg hx]))
    · exact .inl (.inr hl)
  -- `hclear`: the entries that are cleared are not `w`
  | clear y v oneshot k hpc still =>
    rcases hl with hl | hl
    · refine .inl (.inl ?_)
      rw [registry_queue]
      split_ifs with hx
      · subst hx
        unfold RegistryMulti.clearWakers
        rw [RegistryMulti.popped_queue (RegistryMulti.clearQueue_sublist _ _ _ _ _ _)]
        exact RegistryMulti.mem_clearQueue hl halive (hclear v (by rw [hpc]; rfl) hl) hstate
      · exact hl
    · exact .inl (.inr hl)
  | wake | reset | commit | abandon => exact .inl hl
  | ring v _ flows ready pops rings rings' =>
    unfold St.listed
    rw [apply_wakeByRef]
    exact .inl hl
  | register c | regNew c =>
    rcases hl with hl | hl
    · refine .inl (.inl ?_)
      by_cases hx : x = c.side
      · subst hx
        simp [St.apply, St.register, St.setReg, St.setWaker, RegistryMulti.regWaker, hl]
      · simpa [St.apply, St.register, St.setReg, St.setWaker, update_of_ne hx] using hl
    · exact .inl (.inr hl)
  | swap c o fresh hpc kind =>
    rcases hl with hl | hl
    · exact .inl (.inl hl)
    · by_cases hx : x = c.side
      · subst hx
        rw [hpc]
        -- a single receiver replaces its own old waker
        exact .inr (.inr ⟨kind, rfl, rfl⟩)
      · exact .inl (.inr (by simpa [St.apply, St.setWaker, update_of_ne hx] using hl))

omit [DecidableEq ι] in
/-- The sections that shorten a queue. -/
theorem clearWakers_sublist (y : Side) (v : Nat) (oneshot : Bool) :
    ((s.reg y).clearWakers s.alive s.seq (fun u => (s.waker u).state) (s.seq v)
      oneshot).queue.Sublist (s.reg y).queue := by
  have hsub := RegistryMulti.clearQueue_sublist s.alive s.seq (fun u => (s.waker u).state)
    (s.seq v) oneshot (s.reg y).queue
  unfold RegistryMulti.clearWakers
  rw [RegistryMulti.popped_queue hsub]
  exact hsub

/-- The queue of a registry only shrinks, but for a registration. -/
theorem Move.queue (h : Move cfg s pc e pc') (x : Side) :
    ((s.apply i e).reg x).queue.Sublist (s.reg x).queue ∨ (cfg.kind x = .multi ∧ ∃ v,
      ((s.apply i e).reg x).queue = (s.reg x).queue ++ [v] ∧
        (pc.ready = some v ∨ v = s.nextWaker)) := by
  have hshrink (y : Side) (r : RegistryMulti) (hr : r.queue.Sublist (s.reg y).queue) :
      ((s.apply i (.registry y r)).reg x).queue.Sublist (s.reg x).queue := by
    rw [registry_queue]
    split_ifs with hx
    · subst hx; exact hr
    · exact List.Sublist.refl _
  cases h with
  | still _ _ inert | giveUp _ _ _ _ inert => exact .inl (by rw [inert.queue])
  | take y v r _ dead flows ready pops pops' rings queue =>
    refine .inl (hshrink y r ?_)
    rw [queue]
    exact (List.sublist_cons_self _ _).trans (List.sublist_append_right _ _)
  | drain y r _ dead still queue =>
    refine .inl (hshrink y r ?_)
    rw [queue]
    exact List.sublist_append_right _ _
  | clear y v oneshot k hpc still => exact .inl (hshrink y _ (clearWakers_sublist y v oneshot))
  | takeCell | wake | reset | commit | abandon | swap => exact .inl (List.Sublist.refl _)
  | ring v _ => exact .inl (by rw [apply_wakeByRef])
  | register c v hpc kind unlocked =>
    by_cases hx : x = c.side
    · subst hx
      refine .inr ⟨kind, v, ?_, .inl (by rw [hpc]; rfl)⟩
      simp [St.apply, St.register, St.setReg, St.setWaker, RegistryMulti.regWaker]
    · refine .inl ?_
      simp [St.apply, St.register, St.setReg, St.setWaker, update_of_ne hx]
  | regNew c o fresh hpc kind unlocked =>
    by_cases hx : x = c.side
    · subst hx
      refine .inr ⟨kind, s.nextWaker, ?_, .inr rfl⟩
      simp [St.apply, St.register, St.setReg, St.setWaker, RegistryMulti.regWaker]
    · refine .inl ?_
      simp [St.apply, St.register, St.setReg, St.setWaker, update_of_ne hx]

/-- The cell of a registry is filled by the only waiter of its side. -/
theorem Move.cell (h : Move cfg s pc e pc') (x : Side) :
    (s.apply i e).cell x = s.cell x ∨ (s.apply i e).cell x = none ∨
      (cfg.kind x = .single ∧ (s.apply i e).cell x = some s.nextWaker ∧ pc.side = some x ∧
        pc'.own = some s.nextWaker) := by
  cases h with
  | still _ _ inert | giveUp _ _ _ _ inert => exact .inl (by rw [inert.cell])
  | takeCell y v =>
    by_cases hx : x = y
    · subst hx; exact .inr (.inl (update_self ..))
    · exact .inl (update_of_ne hx ..)
  | swap c o fresh hpc kind =>
    by_cases hx : x = c.side
    · subst hx
      exact .inr (.inr ⟨kind, update_self .., by rw [hpc]; rfl, rfl⟩)
    · exact .inl (update_of_ne hx ..)
  | ring v _ => exact .inl (by rw [apply_wakeByRef])
  | _ => exact .inl rfl

/-- Only a registration forgets that a waker was called. -/
theorem Move.issued (h : Move cfg s pc e pc') (hw : (s.waker w).issued = true) :
    ((s.apply i e).waker w).issued = true ∨ pc.ready = some w ∨ w = s.nextWaker := by
  have hset (v : Nat) (state : WakerState) :
      ((s.apply i (.setState v state)).waker w).issued = true :=
    (field_update WakerInner.issued (by rfl) w).trans hw
  cases h with
  | still _ _ inert | giveUp _ _ _ _ inert => exact .inl (by rw [inert.waker]; exact hw)
  | take | takeCell | drain | clear => exact .inl hw
  | wake | reset | commit | abandon => exact .inl (hset _ _)
  | ring v _ =>
    rw [apply_wakeByRef_waker]
    by_cases hv : w = v
    · subst hv; exact .inl (by simp)
    · exact .inl (by rwa [update_of_ne hv])
  | register c v hpc =>
    by_cases hv : w = v
    · subst hv; exact .inr (.inl (by rw [hpc]; rfl))
    · exact .inl (by
        simpa [St.apply, St.register, St.setWaker, St.setReg, update_of_ne hv] using hw)
  | regNew c o fresh =>
    by_cases hv : w = s.nextWaker
    · exact .inr (.inr hv)
    · exact .inl (by
        simpa [St.apply, St.register, St.setWaker, St.setReg, update_of_ne hv] using hw)
  | swap c o fresh =>
    by_cases hv : w = s.nextWaker
    · exact .inr (.inr hv)
    · exact .inl (by simpa [St.apply, St.setWaker, update_of_ne hv] using hw)

omit [DecidableEq ι] in
/-- An agent that has yet to call a waker does so. -/
theorem Move.rings_or_calls (h : Move cfg s pc e pc') (hw : pc.rings = some w) :
    pc'.rings = some w ∨ e = .wakeByRef w := by
  cases h with
  | still _ _ _ still | drain _ _ _ _ still | clear _ _ _ _ _ still | commit _ _ still
  | abandon _ _ still => exact .inl (still.rings.trans hw)
  | giveUp _ _ _ _ _ _ _ _ _ rings | take _ _ _ _ _ _ _ _ _ rings | takeCell _ _ _ _ _ _ _ rings
  | reset _ _ _ _ _ _ _ rings => exact .inl (rings.trans hw)
  | wake y v state _ flows ready pops pops' rings => rw [rings] at hw; cases hw
  | ring v _ flows ready pops rings =>
    rw [rings] at hw
    cases hw
    exact .inr rfl
  | register _ _ hpc | regNew _ _ _ hpc | swap _ _ _ hpc => rw [hpc] at hw; cases hw

theorem Move.rings (h : Move cfg s pc e pc') (hw : pc.rings = some w) :
    pc'.rings = some w ∨ ((s.apply i e).waker w).issued = true := by
  rcases h.rings_or_calls hw with hrings | rfl
  · exact .inl hrings
  · rw [apply_wakeByRef_waker, update_self]
    exact .inr rfl

/-- An agent that has taken out a live waker keeps it until it has changed its state. -/
theorem Move.keepsPop (h : Move cfg s pc e pc') (hp : pc.pops = some (x, w))
    (halive : s.alive w = true) (hstate : (s.waker w).state.isWoken = false) :
    pc'.pops = some (x, w) ∨ ((s.apply i e).waker w).state.isWoken = true := by
  cases h with
  | still _ _ _ still | drain _ _ _ _ still | clear _ _ _ _ _ still | commit _ _ still
  | abandon _ _ still => exact .inl (still.pops.trans hp)
  | ring _ _ _ _ pops | reset _ _ _ _ _ _ pops => exact .inl (pops.trans hp)
  | giveUp _ _ y v inert flows ready pops pops' rings lost =>
    rw [pops, Option.some.injEq, Prod.mk.injEq] at hp
    obtain ⟨_, rfl⟩ := hp
    rcases lost with lost | lost
    · rw [lost] at hstate; cases hstate
    · rw [lost] at halive; cases halive
  | wake y v state _ flows ready pops pops' rings rings' woken =>
    rw [pops, Option.some.injEq, Prod.mk.injEq] at hp
    obtain ⟨_, rfl⟩ := hp
    rw [setState_state, if_pos rfl]
    rcases woken with rfl | ⟨rfl, _⟩ <;> exact .inr rfl
  | take _ _ _ _ _ _ _ pops | takeCell _ _ _ _ _ pops => rw [pops] at hp; cases hp
  | register _ _ hpc | regNew _ _ _ hpc | swap _ _ _ hpc => rw [hpc] at hp; cases hp

omit [DecidableEq ι] in
/-- What an agent knows about a waker it has known before, or it has just read it. -/
theorem knows_of_pcStep (h : PcStep cfg s i pc e pc') (hfits : pc.Fits)
    (hw : pc'.knows cfg = some w) :
    pc.own = some w ∧ (pc.knows cfg = some w ∨ (s.waker w).state.isWoken = true) := by
  have hsettles {c : Call} {v : Nat} {state : WakerState} (goes : Settles c v state pc') :
      w = v ∧ state.isWoken = true ∧ cfg.kind c.side = .multi := by
    cases goes with
    | spin woken notClosed =>
      simp only [Pc.knows] at hw
      split_ifs at hw with hc
      cases hw
      exact ⟨rfl, woken, hc.2⟩
    | sleep _ notWoken goes => cases goes <;> cases hw
    | _ => cases hw
  cases h with
  | recv _ _ _ _ _ _ tries _ _ goes | send _ _ _ _ _ tries _ _ _ goes =>
    cases goes with
    | dummy kind => cases tries <;> cases hw
    | fire kind => cases hw
  | abandonFire x v expected k _ goes =>
    cases goes with
    | dummy kind => rw [hfits.1.knows] at hw; cases hw
    | fire kind => cases hw
  | pollOpen c o here registers async =>
    cases o with
    | none => cases hw
    | some v => simp [Pc.knows, async] at hw
  | sendFail c o blocking =>
    obtain rfl := hfits.2 blocking
    cases hw
  | spinAgain c o fail => exact ⟨Pc.own_of_knows hw, .inl hw⟩
  | spinReset c v fail kind blocking =>
    cases hw
    exact ⟨rfl, .inl (if_pos ⟨blocking, kind⟩)⟩
  | doubleSkip => cases hw
  | recasClosed c v state side =>
    cases hw
    exact ⟨rfl, .inr (by rw [state]; rfl)⟩
  | recasSame c v state side =>
    simp only [Pc.knows, state] at hw
    cases hw
  | commit c v =>
    simp only [Pc.knows] at hw
    split_ifs at hw with hwoken
    cases hw
    refine ⟨rfl, .inr ?_⟩
    cases hst : (s.waker w).state with
    | init | waiting => rw [hst] at hwoken; cases hwoken
    | _ => rfl
  | commitWoken _ _ _ async | closedSpin _ _ _ async => simp [Pc.knows, async] at hw
  | closedSettle c v state _ here blocking goes =>
    obtain ⟨rfl, hwoken, _⟩ := hsettles goes
    exact ⟨rfl, .inl (if_pos hwoken)⟩
  | snoozeWoken c v _ state goes =>
    obtain ⟨rfl, hwoken, _⟩ := hsettles goes
    exact ⟨rfl, .inr hwoken⟩
  | state c v _ goes =>
    obtain ⟨rfl, hwoken, hkind⟩ := hsettles goes
    rw [waiterState, if_pos hkind] at hwoken
    exact ⟨rfl, .inr hwoken⟩
  | congestNot c v _ goes | snoozeDone c v _ goes => cases goes <;> cases hw
  | reuseWoken c v target state kind woken hstate =>
    have hv : v = w := by
      cases state with
      | woken =>
        have := Pc.own_of_knows hw
        cases this
        rfl
      | _ => cases hw
    subst hv
    exact ⟨rfl, .inr woken⟩
  | reuse c v target kind => cases target <;> cases hw
  | clearSkip | clearLock | abandonErr => rw [hfits.1.knows] at hw; cases hw
  | fire x f k _ _ step =>
    have hk : k.pc.knows cfg ≠ some w := by
      rw [Cont.Fits.knows hfits]
      exact nofun
    cases step with
    | skip _ _ _ _ _ _ goes | wakeByRef _ _ _ _ goes =>
      cases goes <;> first | exact absurd hw hk | cases hw
    | _ => first | exact absurd hw hk | cases hw
  | close x f _ _ step => cases step <;> cases hw
  | _ => cases hw

end Keeps

/-! ## The invariant -/

section Invariant

variable {ι : Type} [DecidableEq ι] [Fintype ι]

/-- A waker that waits is in the hands of somebody. -/
structure Placed (cfg : Cfg) (s : St ι) : Prop where
  nodup : ∀ x, (s.reg x).queue.Nodup
  cell : ∀ x, cfg.kind x = .multi → s.cell x = none
  queue : ∀ x, cfg.kind x ≠ .multi → (s.reg x).queue = []
  alone : ∀ x, cfg.kind x = .single → s.cnt x ≤ 1
  /-- A waker on the way out stands in no registry. -/
  popped : ∀ i x w, (s.pc i).pops = some (x, w) → ∀ y, ¬ s.listed y w
  unique : ∀ i j x y w, (s.pc i).pops = some (x, w) → (s.pc j).pops = some (y, w) → i = j
  own : ∀ i w, (s.pc i).own = some w → ((s.waker w).state.isWoken = false ↔ s.placed w)
  ready : ∀ i w, (s.pc i).ready = some w → (s.waker w).state = .init ∧ ¬ s.placed w
  rung : ∀ i w, (s.pc i).own = some w → (s.waker w).state.isWoken = true →
    (s.waker w).issued = true ∨ ∃ j, (s.pc j).rings = some w
  knows : ∀ i w, (s.pc i).knows cfg = some w → (s.waker w).state.isWoken = true

variable {cfg : Cfg} {s t : St ι} {i : ι} {e : Eff} {pc' : Pc} {x : Side} {w : Nat}

omit [Fintype ι] in
/-- Where a waker is after a step of agent `i`. -/
theorem placed_setPc : ((s.apply i e).setPc i pc').placed w ↔
    (∃ x, (s.apply i e).listed x w) ∨ (∃ x, pc'.pops = some (x, w)) ∨
      ∃ j x, j ≠ i ∧ (s.pc j).pops = some (x, w) := by
  constructor
  · rintro (hl | ⟨j, x, hp⟩)
    · exact .inl hl
    · rw [go_pc] at hp
      split_ifs at hp with hj
      · subst hj
        exact .inr (.inl ⟨x, hp⟩)
      · exact .inr (.inr ⟨j, x, hj, hp⟩)
  · rintro (hl | ⟨x, hp⟩ | ⟨j, x, hj, hp⟩)
    · exact .inl hl
    · exact .inr ⟨i, x, by rwa [setPc_pc_self]⟩
    · exact .inr ⟨j, x, by rwa [setPc_pc_of_ne hj, apply_pc]⟩

section Step

variable (hs : Placed cfg s) (h : Held s) (hm : Move cfg s (s.pc i) e pc')

include hm

/-- A waker gets a place only by a registration. -/
theorem placed_of_move (hp : ((s.apply i e).setPc i pc').placed w) :
    s.placed w ∨ (s.pc i).ready = some w ∨ w = s.nextWaker := by
  rcases placed_setPc.mp hp with ⟨x, hl⟩ | ⟨x, hp⟩ | ⟨j, x, _, hp⟩
  · rcases hm.listed hl with hl | ⟨_, hready⟩ | ⟨hnew, _⟩
    · exact .inl (.inl ⟨x, hl⟩)
    · exact .inr (.inl hready)
    · exact .inr (.inr hnew)
  · rcases hm.pops hp with hp | hl
    · exact .inl (.inr ⟨i, x, hp⟩)
    · exact .inl (.inl ⟨x, hl⟩)
  · exact .inl (.inr ⟨j, x, hp⟩)

include h

variable {j : ι}

/-- A waker of another agent is not the one that agent `i` registers. -/
theorem placed_of_move_of_mine (hw : w ∈ (s.pc j).mine)
    (hji : j = i → (s.pc i).ready ≠ some w) (hp : ((s.apply i e).setPc i pc').placed w) :
    s.placed w := by
  rcases placed_of_move hm hp with hp | hready | rfl
  · exact hp
  · have : j = i := h.owner_unique hw (Pc.ready_mem_mine hready)
    exact absurd hready (hji this)
  · exact absurd (h.mine j _ hw).1 (Nat.lt_irrefl _)

/-- A waker that an agent relied on and that stands in a registry after a step stood there
before. -/
theorem Move.listed_of_own (hj : (s.pc j).own = some w) (hw : (s.apply i e).listed x w) :
    s.listed x w := by
  have hmine := Pc.own_mem_mine hj
  rcases hm.listed hw with hold | ⟨-, hready⟩ | ⟨rfl, -⟩
  · exact hold
  · obtain rfl := h.owner_unique hmine (Pc.ready_mem_mine hready)
    rw [Pc.ready_of_own hj] at hready
    cases hready
  · exact absurd (h.mine j _ hmine).1 (Nat.lt_irrefl _)

include hs

/-- A waker whose state agent `i` has just changed has left its place. -/
theorem Placed.not_placed_of_taken (hp : (s.pc i).pops = some (x, w)) (hp' : pc'.pops = none) :
    ¬ ((s.apply i e).setPc i pc').placed w := by
  intro hplaced
  rcases placed_setPc.mp hplaced with ⟨y, hl⟩ | ⟨y, hpop⟩ | ⟨j, y, hj, hpop⟩
  · rcases hm.listed hl with hl | ⟨hside, hready⟩ | ⟨rfl, _⟩
    · exact hs.popped i x w hp y hl
    · rw [Pc.ready_of_pops hp] at hready; cases hready
    · exact absurd (h.pops i x _ hp).1 (Nat.lt_irrefl _)
  · rw [hp'] at hpop; cases hpop
  · exact hj (hs.unique j i y x w hpop hp)

/-- A waker that is not woken and that its agent relies on keeps its place. -/
theorem Placed.keep (hj : (s.pc j).own = some w)
    (hclear : ∀ y v, (s.pc i).clears = some (y, v) → ∀ u ∈ (s.reg y).queue, s.alive u = true →
      s.seq u = s.seq v → u = v)
    (hstate : (s.waker w).state.isWoken = false)
    (hstate' : ((s.apply i e).waker w).state.isWoken = false) :
    ((s.apply i e).setPc i pc').placed w := by
  have halive : s.alive w = true := St.alive_of_own hj
  rcases (hs.own j w hj).mp hstate with ⟨x, hl⟩ | ⟨k, x, hp⟩
  · have hclear' : ∀ v, (s.pc i).clears = some (x, v) → w ∈ (s.reg x).queue →
        s.seq w ≠ s.seq v := by
      intro v hv hw hseq
      obtain rfl := hclear x v hv w hw halive hseq
      -- the cleared waker is one of agent `i`, which relies on none
      unfold Pc.clears at hv
      split at hv
      · next y u oneshot k hpc =>
          cases hv
          have hij : i = j := h.owner_unique (by rw [hpc]; exact List.mem_cons_self)
            (Pc.own_mem_mine hj)
          subst hij
          rw [hpc] at hj
          cases hj
      · cases hv
    rcases hm.keeps (i := i) hl halive hstate hclear' with hl | hp | ⟨hkind, hside, hown⟩
    · exact placed_setPc.mpr (.inl ⟨x, hl⟩)
    · exact placed_setPc.mpr (.inr (.inl ⟨x, hp⟩))
    · -- the only agent of a single side has just given up its waker
      have hwj := (h.mine j w (Pc.own_mem_mine hj)).2.2
      rw [(h.listed x w hl).2] at hwj
      obtain rfl := h.handle_unique (hs.alone x hkind) hwj (h.side i x hside)
      rw [hown] at hj
      cases hj
  · by_cases hk : k = i
    · subst hk
      rcases hm.keepsPop (i := k) hp halive hstate with hp | hwoken
      · exact placed_setPc.mpr (.inr (.inl ⟨x, hp⟩))
      · rw [hwoken] at hstate'; cases hstate'
    · exact placed_setPc.mpr (.inr (.inr ⟨k, x, hk, hp⟩))

/-- The state of a waker that another agent relies on, or that this agent goes on relying on. -/
theorem Placed.own_go (hj : (s.pc j).own = some w) (hji : j = i → pc'.own = some w)
    (hclear : ∀ y v, (s.pc i).clears = some (y, v) → ∀ u ∈ (s.reg y).queue, s.alive u = true →
      s.seq u = s.seq v → u = v) :
    ((s.apply i e).waker w).state.isWoken = false ↔ ((s.apply i e).setPc i pc').placed w := by
  have hmine : w ∈ (s.pc j).mine := Pc.own_mem_mine hj
  have hother (hi : w ∈ (s.pc i).mine) (hown' : pc'.own = none) : False := by
    have hkeep := hji (h.owner_unique hmine hi)
    rw [hown'] at hkeep
    cases hkeep
  have hturns := hm.turns (i := i) w
  constructor
  · intro hstate'
    refine hs.keep h hm hj hclear ?_ hstate'
    generalize hst : ((s.apply i e).waker w).state = state at hturns hstate'
    cases hturns with
    | same => exact hstate'
    | woken | closed | abandon => cases hstate'
    | reset own own' => exact (hother (Pc.own_mem_mine own) own').elim
    | commit own init => rw [init]; rfl
    | new fresh => exact absurd (h.mine j w hmine).1 (by rw [fresh]; exact Nat.lt_irrefl _)
  · intro hp
    have hready : j = i → (s.pc i).ready ≠ some w := by
      rintro rfl
      rw [Pc.ready_of_own hj]
      exact nofun
    have hold : (s.waker w).state.isWoken = false :=
      (hs.own j w hj).mpr (placed_of_move_of_mine h hm hmine hready hp)
    generalize hst : ((s.apply i e).waker w).state = state at hturns
    cases hturns with
    | same => exact hold
    | woken _ pops pops' | closed _ pops pops' =>
      exact absurd hp (hs.not_placed_of_taken h hm pops pops')
    | reset | commit | new => rfl
    | abandon mine own' ready' => exact (hother mine own').elim

/-- A waker that agent `i` takes out of a registry leaves it. -/
theorem Placed.popped_of_pops (hp : pc'.pops = some (x, w)) (hp' : (s.pc i).pops ≠ some (x, w))
    (y : Side) : ¬ (s.apply i e).listed y w := by
  intro hl
  -- so the step took the waker off its list
  have hlisted : s.listed x w := (hm.pops hp).resolve_left hp'
  have hside := (h.listed x w hlisted).2
  cases hm with
  | take z v r _ dead flows ready pops pops' rings queue hdead seq =>
    rw [pops'] at hp
    cases hp
    have hkind : cfg.kind x = .multi := by
      by_contra hne
      rw [hs.queue x hne] at queue
      simp at queue
    rcases hl with hl | hl
    · rw [registry_queue] at hl
      split_ifs at hl with hy
      · -- the queue held the waker once
        have hnodup := hs.nodup x
        rw [queue] at hnodup
        exact (List.nodup_cons.mp (List.nodup_append.mp hnodup).2.1).1 hl
      · exact hy ((h.listed y w (.inl hl)).2.symm.trans hside)
    · obtain rfl : y = x := (h.listed y w (.inr hl)).2.symm.trans hside
      have hcell : s.cell y = some w := hl
      rw [hs.cell y hkind] at hcell
      cases hcell
  | takeCell z v _ flows ready pops pops' rings cell =>
    rw [pops'] at hp
    cases hp
    have hkind : cfg.kind x ≠ .multi := by
      intro hmulti
      rw [hs.cell x hmulti] at cell
      cases cell
    rcases hl with hl | hl
    · obtain rfl : y = x := (h.listed y w (.inl hl)).2.symm.trans hside
      have hqueue : w ∈ (s.reg y).queue := hl
      rw [hs.queue y hkind] at hqueue
      cases hqueue
    · by_cases hy : y = x
      · subst hy
        simp [St.apply] at hl
      · have hcell : s.cell y = some w := by
          simpa [St.apply, update_of_ne hy] using hl
        exact hy ((h.listed y w (.inr hcell)).2.symm.trans hside)
  | still _ _ _ still | drain _ _ _ _ still | clear _ _ _ _ _ still | commit _ _ still
  | abandon _ _ still => exact hp' (still.pops ▸ hp)
  | ring _ _ _ _ pops | reset _ _ _ _ _ _ pops => exact hp' (pops ▸ hp)
  | giveUp _ _ _ _ _ _ _ _ pops' | wake _ _ _ _ _ _ _ pops' => rw [pops'] at hp; cases hp
  | register | regNew | swap => cases hp

/-- A popped waker is in no registry. -/
theorem Placed.popped_go (hp : (((s.apply i e).setPc i pc').pc j).pops = some (x, w))
    (y : Side) : ¬ ((s.apply i e).setPc i pc').listed y w := by
  -- a waker that was on its way out before the step
  have hold {k : ι} (hk : (s.pc k).pops = some (x, w)) : ¬ (s.apply i e).listed y w := by
    intro hl
    rcases hm.listed hl with hl | ⟨_, hready⟩ | ⟨rfl, _⟩
    · exact hs.popped k x w hk y hl
    · exact (hs.ready i w hready).2 (.inr ⟨k, x, hk⟩)
    · exact Nat.lt_irrefl _ (h.pops k x _ hk).1
  rw [go_pc] at hp
  split_ifs at hp with hj
  · subst hj
    by_cases hp' : (s.pc j).pops = some (x, w)
    · exact hold hp'
    · exact hs.popped_of_pops h hm hp hp' y
  · exact hold hp

omit h in
/-- A waker is popped by one agent. -/
theorem Placed.unique_go {j k : ι} {y : Side}
    (hj : (((s.apply i e).setPc i pc').pc j).pops = some (x, w))
    (hk : (((s.apply i e).setPc i pc').pc k).pops = some (y, w)) : j = k := by
  -- the agent of the step against another one
  have hone {l : ι} {z : Side} (hl : l ≠ i) (hpop : (s.pc l).pops = some (z, w)) {z' : Side}
      (hi : pc'.pops = some (z', w)) : False := by
    rcases hm.pops hi with hi | hi
    · exact hl (hs.unique l i z z' w hpop hi)
    · exact hs.popped l z w hpop z' hi
  by_cases hji : j = i
  · by_cases hki : k = i
    · exact hji.trans hki.symm
    · subst hji
      rw [setPc_pc_self] at hj
      rw [setPc_pc_of_ne hki, apply_pc] at hk
      exact (hone hki hk hj).elim
  · rw [setPc_pc_of_ne hji, apply_pc] at hj
    rw [go_pc] at hk
    split_ifs at hk with hki
    · subst hki
      exact (hone hji hj hk).elim
    · exact hs.unique j k x y w hj hk

/-- No waker is queued twice. -/
theorem Placed.nodup_go (x : Side) : ((s.apply i e).reg x).queue.Nodup := by
  rcases hm.queue (i := i) x with hsub | ⟨_, v, hqueue, hv⟩
  · exact hsub.nodup (hs.nodup x)
  · have hnot : v ∉ (s.reg x).queue := by
      intro hmem
      rcases hv with hready | rfl
      · exact (hs.ready i v hready).2 (.inl ⟨x, .inl hmem⟩)
      · exact Nat.lt_irrefl _ (h.listed x _ (.inl hmem)).1
    rw [hqueue]
    exact List.nodup_append.mpr ⟨hs.nodup x, List.nodup_singleton v, by
      rintro u hu _ hv rfl
      obtain rfl := List.mem_singleton.mp hv
      exact hnot hu⟩

omit h in
/-- A waker that agent `i` has just registered waits in its registry. -/
theorem Placed.own_of_register (hpc' : pc'.own = some w) (hnot : (s.pc i).own ≠ some w) :
    ((s.apply i e).waker w).state.isWoken = false ∧ ((s.apply i e).setPc i pc').placed w := by
  have hstate : ((s.apply i e).waker w).state = .init := by
    rcases hm.own (i := i) hpc' with hown | hready | ⟨_, hinit⟩
    · exact absurd hown hnot
    · have hturns := hm.turns (i := i) w
      have hinit := (hs.ready i w hready).1
      generalize ((s.apply i e).waker w).state = state at hturns
      cases hturns with
      | same => exact hinit
      | woken _ pops | closed _ pops => rw [Pc.ready_of_pops pops] at hready; cases hready
      | reset own | commit own => exact absurd own hnot
      | abandon mine own' ready' => rw [own'] at hpc'; cases hpc'
      | new fresh => rfl
    · exact hinit
  refine ⟨by rw [hstate]; rfl, placed_setPc.mpr (.inl ?_)⟩
  rcases hm.flows with hflows | ⟨c, o, fresh, v, _, rfl, hreg⟩
  · rcases hflows.own with hnone | hsame
    · rw [hnone] at hpc'; cases hpc'
    · exact absurd (hsame ▸ hpc') hnot
  · cases hpc'
    refine ⟨c.side, ?_⟩
    rcases hreg with ⟨_, _, rfl, _⟩ | ⟨rfl, ⟨rfl, _⟩ | ⟨rfl, _⟩⟩
    · exact .inl (by
        simp [St.apply, St.register, St.setReg, St.setWaker, RegistryMulti.regWaker])
    · exact .inl (by
        simp [St.apply, St.register, St.setReg, St.setWaker, RegistryMulti.regWaker])
    · exact .inr (by simp [St.apply])

omit hs in
/-- A woken waker that its agent relies on stays woken. -/
theorem Move.woken (hj : (s.pc j).own = some w) (hji : j = i → pc'.own = some w)
    (hwoken : (s.waker w).state.isWoken = true) :
    ((s.apply i e).waker w).state.isWoken = true := by
  have hmine : w ∈ (s.pc j).mine := Pc.own_mem_mine hj
  have hturns := hm.turns (i := i) w
  generalize ((s.apply i e).waker w).state = state at hturns
  cases hturns with
  | same => exact hwoken
  | woken => rfl
  | closed => rfl
  | abandon => rfl
  | reset own own' =>
    have hkeep := hji (h.owner_unique hmine (Pc.own_mem_mine own))
    rw [own'] at hkeep
    cases hkeep
  | commit own init => rw [init] at hwoken; cases hwoken
  | new fresh => exact absurd (h.mine j w hmine).1 (by rw [fresh]; exact Nat.lt_irrefl _)

/-- A waker about to be registered again has no place. -/
theorem Placed.ready_go (hj : (((s.apply i e).setPc i pc').pc j).ready = some w) :
    ((s.apply i e).waker w).state = .init ∧ ¬ ((s.apply i e).setPc i pc').placed w := by
  rw [go_pc] at hj
  split_ifs at hj with hji
  · subst hji
    obtain ⟨hown, hinit, hreset⟩ := hm.ready (i := j) hj
    refine ⟨hinit, fun hp => ?_⟩
    have hwoken : (s.waker w).state.isWoken = true := by
      rcases hreset with ⟨c, hpc⟩ | hstate
      · exact hs.knows j w (by rw [hpc]; rfl)
      · rw [hstate]; rfl
    have hold := placed_of_move_of_mine h hm (Pc.own_mem_mine hown)
      (fun _ => by rw [Pc.ready_of_own hown]; exact nofun) hp
    rw [(hs.own j w hown).mpr hold] at hwoken
    cases hwoken
  · have hmine : w ∈ (s.pc j).mine := Pc.ready_mem_mine hj
    obtain ⟨hinit, hnot⟩ := hs.ready j w hj
    refine ⟨?_, fun hp => hnot (placed_of_move_of_mine h hm hmine (absurd · hji) hp)⟩
    have hturns := hm.turns (i := i) w
    generalize ((s.apply i e).waker w).state = state at hturns
    cases hturns with
    | same => exact hinit
    | woken x pops | closed x pops => exact absurd (.inr ⟨i, x, pops⟩) hnot
    | reset own | commit own => exact absurd (h.owner_unique hmine (Pc.own_mem_mine own)) hji
    | abandon mine own' ready' => exact absurd (h.owner_unique hmine mine) hji
    | new fresh => rfl

/-- A woken waker was called or is about to be. -/
theorem Placed.rung_go (hj : (s.pc j).own = some w) (hji : j = i → pc'.own = some w)
    (hwoken : ((s.apply i e).waker w).state.isWoken = true) :
    ((s.apply i e).waker w).issued = true ∨
      ∃ k, (((s.apply i e).setPc i pc').pc k).rings = some w := by
  have hmine : w ∈ (s.pc j).mine := Pc.own_mem_mine hj
  have hself (hr : pc'.rings = some w) : ∃ k, (((s.apply i e).setPc i pc').pc k).rings = some w :=
    ⟨i, by rwa [setPc_pc_self]⟩
  have hturns := hm.turns (i := i) w
  generalize ((s.apply i e).waker w).state = state at hturns hwoken
  cases hturns with
  | same =>
    rcases hs.rung j w hj hwoken with hissued | ⟨k, hk⟩
    · rcases hm.issued (i := i) hissued with hissued | hready | rfl
      · exact .inl hissued
      · obtain rfl := h.owner_unique hmine (Pc.ready_mem_mine hready)
        rw [Pc.ready_of_own hj] at hready
        cases hready
      · exact absurd (h.mine j _ hmine).1 (Nat.lt_irrefl _)
    · by_cases hki : k = i
      · subst hki
        exact (hm.rings (i := k) hk).elim (fun hr => .inr (hself hr)) .inl
      · exact .inr ⟨k, by rwa [setPc_pc_of_ne hki, apply_pc]⟩
  | woken _ _ _ rings' | closed _ _ _ _ rings' => exact .inr (hself rings')
  | reset | commit | new => cases hwoken
  | abandon mine own' ready' =>
    have hkeep := hji (h.owner_unique hmine mine)
    rw [own'] at hkeep
    cases hkeep

end Step

/-- A step of an agent keeps the invariant. -/
theorem Placed.go (hs : Placed cfg s) (h : Held s) (hstep : PcStep cfg s i (s.pc i) e pc')
    (hclear : ∀ y v, (s.pc i).clears = some (y, v) → ∀ u ∈ (s.reg y).queue, s.alive u = true →
      s.seq u = s.seq v → u = v) : Placed cfg ((s.apply i e).setPc i pc') := by
  have hm : Move cfg s (s.pc i) e pc' := move_of_pcStep hstep (h.fits i)
  -- an agent relies on the waker it relied on, or agent `i` has just registered it
  have hown {j : ι} {w : Nat} (hj : (((s.apply i e).setPc i pc').pc j).own = some w) :
      ((s.pc j).own = some w ∧ (j = i → pc'.own = some w)) ∨
        (pc'.own = some w ∧ (s.pc i).own ≠ some w) := by
    rw [go_pc] at hj
    split_ifs at hj with hji
    · subst hji
      by_cases hold : (s.pc j).own = some w
      · exact .inl ⟨hold, fun _ => hj⟩
      · exact .inr ⟨hj, hold⟩
    · exact .inl ⟨hj, (absurd · hji)⟩
  refine ⟨hs.nodup_go h hm, ?_, ?_, ?_, ?_, ?_, ?_, ?_, ?_, ?_⟩
  · intro x hx
    rcases hm.cell (i := i) x with hsame | hnone | ⟨hsingle, _⟩
    · exact hsame.trans (hs.cell x hx)
    · exact hnone
    · rw [hx] at hsingle; cases hsingle
  · intro x hx
    rcases hm.queue (i := i) x with hsub | ⟨hkind, _⟩
    · rw [hs.queue x hx] at hsub
      exact List.sublist_nil.mp hsub
    · exact absurd hkind hx
  · intro x hx
    rw [setPc_cnt, apply_cnt]
    exact hs.alone x hx
  · intro j x w hp y
    exact hs.popped_go h hm hp y
  · intro j k x y w hj hk
    exact hs.unique_go hm hj hk
  · intro j w hj
    rcases hown hj with ⟨hold, hji⟩ | ⟨hnew, hnot⟩
    · exact hs.own_go h hm hold hji hclear
    · obtain ⟨hstate, hplaced⟩ := hs.own_of_register hm hnew hnot
      exact ⟨fun _ => hplaced, fun _ => hstate⟩
  · intro j w hj
    exact hs.ready_go h hm hj
  · intro j w hj hwoken
    rcases hown hj with ⟨hold, hji⟩ | ⟨hnew, hnot⟩
    · exact hs.rung_go h hm hold hji hwoken
    · have hwaits := (hs.own_of_register hm hnew hnot).1
      rw [setPc_waker, hwaits] at hwoken
      cases hwoken
  · intro j w hj
    rw [go_pc] at hj
    split_ifs at hj with hji
    · subst hji
      obtain ⟨hold, hknown⟩ := knows_of_pcStep hstep (h.fits j) hj
      have hwoken : (s.waker w).state.isWoken = true := hknown.elim (hs.knows j w) id
      exact hm.woken h hold (fun _ => Pc.own_of_knows hj) hwoken
    · exact hm.woken h (Pc.own_of_knows hj) (absurd · hji) (hs.knows j w hj)

/-! ## The starts and ends of calls -/

omit [Fintype ι] in
/-- An agent that goes on with no more than it had. -/
theorem Placed.setPc (hs : Placed cfg s) (hown : pc'.own = none ∨ pc'.own = (s.pc i).own)
    (hready : pc'.ready = none) (hpops : pc'.pops = (s.pc i).pops)
    (hrings : pc'.rings = (s.pc i).rings) (hknows : pc'.knows cfg = none) :
    Placed cfg (s.setPc i pc') := by
  have hpops (j : ι) : ((s.setPc i pc').pc j).pops = (s.pc j).pops := by
    by_cases hj : j = i
    · subst hj; rw [setPc_pc_self, hpops]
    · rw [setPc_pc_of_ne hj]
  have hrings (j : ι) : ((s.setPc i pc').pc j).rings = (s.pc j).rings := by
    by_cases hj : j = i
    · subst hj; rw [setPc_pc_self, hrings]
    · rw [setPc_pc_of_ne hj]
  have hown {j : ι} {w : Nat} (hj : ((s.setPc i pc').pc j).own = some w) :
      (s.pc j).own = some w := by
    by_cases hji : j = i
    · subst hji
      rw [setPc_pc_self] at hj
      rcases hown with hnone | hsame
      · rw [hnone] at hj; cases hj
      · exact hsame ▸ hj
    · rwa [setPc_pc_of_ne hji] at hj
  have hplaced (w : Nat) : (s.setPc i pc').placed w ↔ s.placed w := by
    unfold St.placed
    simp only [hpops]
    rfl
  refine ⟨hs.nodup, hs.cell, hs.queue, hs.alone, ?_, ?_, ?_, ?_, ?_, ?_⟩
  · intro j x w hp
    rw [hpops] at hp
    exact hs.popped j x w hp
  · intro j k x y w hj hk
    rw [hpops] at hj hk
    exact hs.unique j k x y w hj hk
  · intro j w hj
    rw [hplaced]
    exact hs.own j w (hown hj)
  · intro j w hj
    rw [hplaced]
    rw [setPc_pc] at hj
    split_ifs at hj with hji
    · subst hji
      rw [hready] at hj
      cases hj
    · exact hs.ready j w hj
  · intro j w hj hwoken
    simp only [hrings]
    exact hs.rung j w (hown hj) hwoken
  · intro j w hj
    rw [setPc_pc] at hj
    split_ifs at hj with hji
    · subst hji
      rw [hknows] at hj
      cases hj
    · exact hs.knows j w hj

omit [DecidableEq ι] [Fintype ι] in
/-- What the invariant does not look at. -/
theorem Placed.congr (hs : Placed cfg s) (hpc : t.pc = s.pc) (hwaker : t.waker = s.waker)
    (hqueue : ∀ x, (t.reg x).queue = (s.reg x).queue) (hcell : t.cell = s.cell)
    (halone : ∀ x, cfg.kind x = .single → t.cnt x ≤ 1) : Placed cfg t := by
  have hlisted (x : Side) (w : Nat) : t.listed x w ↔ s.listed x w := by
    unfold St.listed
    rw [hqueue, hcell]
  have hplaced (w : Nat) : t.placed w ↔ s.placed w := by
    unfold St.placed
    simp only [hlisted, hpc]
  refine ⟨fun x => by rw [hqueue]; exact hs.nodup x, fun x hx => by rw [hcell]; exact hs.cell x hx,
    fun x hx => by rw [hqueue]; exact hs.queue x hx, halone, ?_, ?_, ?_, ?_, ?_, ?_⟩
  · simp only [hpc, hlisted]; exact hs.popped
  · simp only [hpc]; exact hs.unique
  · simp only [hpc, hwaker, hplaced]; exact hs.own
  · simp only [hpc, hwaker, hplaced]; exact hs.ready
  · simp only [hpc, hwaker]; exact hs.rung
  · simp only [hpc, hwaker]; exact hs.knows

omit [DecidableEq ι] [Fintype ι] in
theorem Placed.countMsg (hs : Placed cfg s) (c : Call) : Placed cfg (s.countMsg c) := by
  unfold St.countMsg
  split_ifs
  · exact hs.congr rfl rfl (fun _ => rfl) rfl hs.alone
  · exact hs

omit [Fintype ι] in
/-- A handle goes. -/
theorem Placed.dropHandle (hs : Placed cfg s) (x : Side) (i : ι) :
    Placed cfg (s.dropHandle x i) := by
  refine hs.congr rfl rfl (fun _ => rfl) rfl fun y hy => ?_
  have hle := hs.alone y hy
  by_cases hyx : y = x
  · subst hyx
    simp only [St.dropHandle, update_self]
    omega
  · simpa [St.dropHandle, update_of_ne hyx] using hle

/-- A call starts without a waker. -/
theorem startPc_idle (cfg : Cfg) (c : Call) : (startPc c).own = none ∧ (startPc c).ready = none ∧
    (startPc c).pops = none ∧ (startPc c).rings = none ∧ (startPc c).knows cfg = none := by
  fun_cases startPc c <;> exact ⟨rfl, rfl, rfl, rfl, rfl⟩

omit [Fintype ι] in
/-- The start of a call. -/
theorem Placed.call {a : Act ι} (hs : Placed cfg s) (hstep : CallStep cfg s a t) :
    Placed cfg t := by
  have hcount (c : Call) : (s.countMsg c).pc = s.pc := by unfold St.countMsg; split_ifs <;> rfl
  cases hstep with
  | call i c pc handle msg =>
    obtain ⟨hown, hready, hpops, hrings, hknows⟩ := startPc_idle cfg c
    refine (hs.countMsg c).setPc (.inl hown) hready ?_ ?_ hknows
    · rw [hcount, pc, hpops]; rfl
    · rw [hcount, pc, hrings]; rfl
  | poll i c c' w _ pc next =>
    refine (hs.countMsg c').setPc (.inr ?_) ?_ ?_ ?_ ?_
    · rw [hcount]
      cases next <;> rcases pc with pc | pc <;> rw [pc] <;> rfl
    · cases next <;> rfl
    · rw [hcount]
      cases next <;> rcases pc with pc | pc <;> rw [pc] <;> rfl
    · rw [hcount]
      cases next <;> rcases pc with pc | pc <;> rw [pc] <;> rfl
    · cases next <;> simp [Pc.knows, Call.isBlocking]
  | dropFuture _ _ _ pc | dropSingle _ _ _ pc =>
    rcases pc with pc | pc <;>
      exact hs.setPc (.inl rfl) rfl (by rw [pc]; rfl) (by rw [pc]; rfl) rfl
  | dropHandle i x pc handle shared => exact hs.dropHandle x i
  | dropLast i x _ pc handle alone goes =>
    have hpc : (s.dropHandle x i).pc i = .idle := pc
    cases goes with
    | multi kind | single kind =>
      exact (hs.dropHandle x i).setPc (.inl rfl) rfl (by rw [hpc]; rfl) (by rw [hpc]; rfl) rfl
    | dummy kind =>
      exact (hs.dropHandle x i).setPc (.inl rfl) rfl (by rw [hpc]) (by rw [hpc]) rfl
  | clone i j x source slot kind =>
    refine hs.congr rfl rfl (fun _ => rfl) rfl fun y hy => ?_
    have hne : y ≠ x := by rintro rfl; exact kind hy
    simpa [St.addHandle, update_of_ne hne] using hs.alone y hy
  | readTaken i m _ pc goes =>
    cases goes with
    | dummy kind | fire kind =>
      exact hs.setPc (.inl rfl) rfl (by rw [pc]; rfl) (by rw [pc]; rfl) rfl
  | readToken _ pc | dropToken _ _ pc =>
    exact hs.setPc (.inl rfl) rfl (by rw [pc]; rfl) (by rw [pc]; rfl) rfl
  | regSelect | cancelSelect => exact hs.congr rfl rfl (setReg_queue rfl) rfl hs.alone

omit [Fintype ι] in
theorem placed_new (a b : ι) : Placed cfg (St.new a b) := by
  refine ⟨fun _ => List.nodup_nil, fun _ _ => rfl, fun _ _ => rfl, fun _ _ => Nat.le_refl _,
    nofun, nofun, nofun, nofun, nofun, nofun⟩

theorem Placed.step {a : Act ι} (hs : Placed cfg s) (h : Held s) (hok : clearOk s a)
    (hstep : Channel.step cfg s a = some t) : Placed cfg t := by
  rcases step_cases hstep with ⟨i, choice, e, pc', rfl, hpc, rfl⟩ | hcall
  · exact hs.go h hpc fun y v hv => hok (y, v) hv
  · exact hs.call hcall

/-- The invariant holds in every run in which `_clear_wakers` meets no other waker with the number
it looks for. -/
theorem placed_of_reach (h : Reach (system cfg) clearOk s) : Placed cfg s := by
  suffices hboth : Held s ∧ Placed cfg s from hboth.2
  refine h.invariant (P := fun s => Held s ∧ Placed cfg s) ?_ ?_
  · rintro _ ⟨a, b, hab, rfl⟩
    exact ⟨held_new hab, placed_new a b⟩
  · rintro s a t ⟨hheld, hplaced⟩ hok hstep
    refine ⟨hheld.step hstep, ?_⟩
    exact hplaced.step hheld hok hstep

end Invariant

end Crossfire.Channel
