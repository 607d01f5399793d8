import Crossfire.Channel.Tokens

/-!
# One producer and one consumer

A channel with a `RegistrySingle` on both sides whose handles make blocking calls only. The cell of
a side is at once the registration of its waiter and the flag that the waiter has not been popped.
A waiter whose waker is still in the cell after its double check has failed can count on the other
side: once there is something to wait for no more, the other agent is inside `fire` and has not
looked at the cell for the last time (`Covered`). With `Roused` this gives
`single_no_lost_wake`: when nobody runs any more, nobody sleeps on an available queue.
-/

set_option autoImplicit false

namespace Crossfire.Channel

open Lib.Interleaving Crossfire.Waker Crossfire.Registry

/-- The registered waker of a waiter whose double check has failed. -/
def Pc.checked : Pc → Option Nat
  | .commit _ w | .closed _ w _ | .congest _ w | .snooze _ w | .deadline _ w | .park _ w
  | .state _ w => some w
  | _ => none

/-- Inside `fire` of side `x`, before the compare-exchange on the cell. -/
inductive Arrives (x : Side) : Pc → Prop
  | first (k : Cont) : Arrives x (.fire x .first k)
  | cellCas (v : Nat) (k : Cont) : Arrives x (.fire x (.cellCas v) k)

theorem Pc.own_of_checked {pc : Pc} {w : Nat} (h : pc.checked = some w) : pc.own = some w := by
  cases pc <;> first | exact h | cases h

theorem Cont.checked_pc (k : Cont) : k.pc.checked = none := by cases k <;> rfl

section Blocking

variable {ι : Type} {cfg : Cfg} {s : St ι}

/-- What a waiter of side `x` waits for: a message, or room for one. -/
def St.available (cfg : Cfg) (s : St ι) : Side → Prop
  | .rx => s.queue ≠ []
  | .tx => isFull cfg s = false

/-- The runs of blocking calls, with and without a deadline. -/
def blockingOk (_ : St ι) : Act ι → Prop
  | .call _ c => c.isBlocking = true
  | .go _ _ => True
  | .poll _ _ | .dropFuture _ | .dropHandle _ | .clone _ _ | .readSelect _ | .dropToken _
  | .regSelect _ _ | .cancelSelect _ => False

instance (s : St ι) : (a : Act ι) → Decidable (blockingOk s a)
  | .call _ c => inferInstanceAs (Decidable (c.isBlocking = true))
  | .go _ _ => instDecidableTrue
  | .poll _ _ | .dropFuture _ | .dropHandle _ | .clone _ _ | .readSelect _ | .dropToken _
  | .regSelect _ _ | .cancelSelect _ => instDecidableFalse

/-- The agent makes only blocking calls. -/
def Pc.Blocking (pc : Pc) : Prop := ∀ c, pc.call = some c → c.isBlocking = true

theorem available_congr {t : St ι} (h : t.queue = s.queue) (x : Side) :
    t.available cfg x ↔ s.available cfg x := by
  cases x <;> simp only [St.available, isFull, h]

theorem not_available_of_attempt {c : Call} (h : attempt cfg s c = none) :
    ¬ s.available cfg c.side := by
  cases hside : c.side with
  | rx => exact fun hne => hne (queue_eq_nil_of_attempt h hside)
  | tx =>
    intro hroom
    rw [St.available, isFull_of_attempt h hside] at hroom
    cases hroom

end Blocking

section Steps

variable {ι : Type} [Fintype ι] {cfg : Cfg} {s : St ι} {i : ι} {e : Eff} {pc pc' : Pc} {x : Side}
  {c : Call} {k : Cont} {w : Nat}

theorem blocking_of_pcStep (h : PcStep cfg s i pc e pc') (hpc : pc.Blocking) : pc'.Blocking := by
  intro c hc
  rcases call_of_pcStep h hc with hold | ⟨-, final, hselect⟩
  · exact hpc c hold
  · cases hpc _ hselect

theorem Fires.checked (h : Fires cfg x k pc') : pc'.checked = none := by
  cases h with
  | dummy => exact k.checked_pc
  | fire => rfl

theorem Wakes.checked {rest : Rest} {result : WakeResult} (h : Wakes x w k rest result pc') :
    pc'.checked = none := by
  cases h with
  | leave => exact k.checked_pc
  | _ => rfl

theorem fireStep_checked {f : FirePc} (h : FireStep cfg s x k f e pc') : pc'.checked = none := by
  cases h with
  | skip _ _ _ _ _ _ goes | wakeByRef _ _ _ _ goes => exact goes.checked
  | _ => first | rfl | exact k.checked_pc

theorem Sleeps.checked (h : Sleeps c w pc') : pc'.checked = some w := by cases h <;> rfl

theorem Settles.checked {state : WakerState} (h : Settles c w state pc') {v : Nat}
    (hv : pc'.checked = some v) : v = w := by
  cases h with
  | sleep _ _ goes => exact (Option.some.inj (goes.checked.symm.trans hv)).symm
  | _ => cases hv

/-- A waiter whose double check has failed was one before, or its double check fails now. -/
theorem checked_of_pcStep (h : PcStep cfg s i pc e pc') (hfits : pc.Fits) (hpc : pc.Blocking)
    (hw : pc'.checked = some w) :
    pc.checked = some w ∨ e = .skip ∧ ∃ c, pc = .double c w ∧ attempt cfg s c = none := by
  cases h with
  | recv _ _ _ _ _ _ _ _ _ goes | send _ _ _ _ _ _ _ _ _ goes | abandonFire _ _ _ _ _ goes =>
    rw [goes.checked] at hw; cases hw
  | doubleCommit c _ fail | doubleSkip c _ fail => cases hw; exact .inr ⟨rfl, c, rfl, fail⟩
  | recasClosed c v | recasSame c v =>
    have hblocking := hpc c rfl
    rw [hfits.2] at hblocking
    cases hblocking
  | closedSettle _ _ _ _ _ _ goes | snoozeWoken _ _ _ _ goes | state _ _ _ goes =>
    exact .inl (by rw [goes.checked hw]; rfl)
  | congestNot _ _ _ goes | snoozeDone _ _ _ goes => exact .inl (goes.checked.symm.trans hw)
  | commit | congest | snooze | deadline | park => exact .inl hw
  | clearSkip | clearLock | abandonErr | reuseWoken | reuse => rw [Cont.checked_pc] at hw; cases hw
  | fire x f k _ _ step => rw [fireStep_checked step] at hw; cases hw
  | close x f _ _ step => cases step <;> cases hw
  | _ => cases hw

/-- An agent before the compare-exchange on a filled cell stays there until it empties the cell. -/
theorem Arrives.fireStep (h : Arrives x pc) (hstep : PcStep cfg s i pc e pc')
    (hkind : cfg.kind x = .single) (hcell : s.cell x = some w) :
    (e = .skip ∧ Arrives x pc') ∨ e = .cell x none := by
  cases h with
  | first k =>
    cases hstep with
    | fire _ _ _ _ _ step =>
      cases step with
      | none kind | first kind => rw [hkind] at kind; cases kind
      | cellNone kind cell => rw [hcell] at cell; cases cell
      | cellSome kind v cell => exact .inl ⟨rfl, .cellCas v k⟩
    | recv _ _ _ _ _ _ tries => cases tries
    | send _ _ _ _ _ tries => cases tries
  | cellCas v k =>
    cases hstep with
    | fire _ _ _ _ _ step =>
      cases step with
      | cellTake => exact .inr rfl
      | cellGone _ cell => rw [hcell] at cell; cases cell
      | cellOther _ v' cell => exact .inl ⟨rfl, .cellCas v' k⟩
    | recv _ _ _ _ _ _ tries => cases tries
    | send _ _ _ _ _ tries => cases tries

/-- Who makes a side available goes on to `fire` its registry. -/
theorem arrives_of_available [DecidableEq ι] (h : PcStep cfg s i pc e pc') (hpc : pc.Blocking)
    (hkind : cfg.kind x = .single) (hnot : ¬ s.available cfg x)
    (hafter : (s.apply i e).available cfg x) : Arrives x pc' := by
  have hne : cfg.kind x ≠ .dummy := by rw [hkind]; exact nofun
  have hfires {y : Side} {k : Cont} (hy : y.other = x) (hgoes : Fires cfg y.other k pc') :
      Arrives x pc' := by
    rw [hy] at hgoes
    cases hgoes with
    | dummy kind => exact absurd kind hne
    | fire => exact .first k
  cases e with
  | pop =>
    cases x with
    | rx =>
      -- a receive leaves fewer messages
      have hnil : s.queue = [] := not_not.mp hnot
      exact absurd (by simp [St.apply, hnil]) hafter
    | tx =>
      cases h with
      | recv _ c k m rest _ tries side queue goes => exact hfires (by rw [side]; rfl) goes
      | selectClaim => cases hpc _ rfl
      | fire _ _ _ _ _ step => cases step
      | close _ _ _ _ step => cases step
  | push m =>
    cases x with
    | rx =>
      cases h with
      | send _ c k m _ tries side msg room goes => exact hfires (by rw [side]; rfl) goes
      | fire _ _ _ _ _ step => cases step
      | close _ _ _ _ step => cases step
    | tx =>
      cases h with
      | send _ c k m _ tries side msg room goes => exact absurd room hnot
      | fire _ _ _ _ _ step => cases step
      | close _ _ _ _ step => cases step
  | wakeByRef v =>
    refine absurd ((available_congr ?_ x).mp hafter) hnot
    rw [apply_wakeByRef]
  | _ => exact absurd ((available_congr rfl x).mp hafter) hnot

end Steps

/-! ## The invariant -/

section Invariant

variable {ι : Type} [DecidableEq ι] [Fintype ι]

/-- Blocking calls, and no waker is left in the cell of an available side. -/
structure Covered (cfg : Cfg) (s : St ι) : Prop where
  blocking : ∀ i, (s.pc i).Blocking
  /-- A waker left in the cell of an available side has an agent on the way. -/
  arrives : ∀ i x w, (s.pc i).checked = some w → (s.pc i).side = some x → s.cell x = some w →
    s.available cfg x → ∃ j, Arrives x (s.pc j)

variable {cfg : Cfg} {s t : St ι} {i : ι} {e : Eff} {pc' : Pc} {w : Nat}

/-- Who has checked is covered by who arrives. -/
theorem Covered.arrives_go (hc : Covered cfg s) (h : Held s) (hkind : ∀ x, cfg.kind x = .single)
    (hstep : PcStep cfg s i (s.pc i) e pc') {j : ι} {x : Side}
    (hj : (((s.apply i e).setPc i pc').pc j).checked = some w)
    (hside : (((s.apply i e).setPc i pc').pc j).side = some x)
    (hcell : (s.apply i e).cell x = some w) (havailable : (s.apply i e).available cfg x) :
    ∃ k, Arrives x (((s.apply i e).setPc i pc').pc k) := by
  have hm : Move cfg s (s.pc i) e pc' := move_of_pcStep hstep (h.fits i)
  by_cases hbefore : s.available cfg x
  · -- the waiter had seen its double check fail before
    have hold : (s.pc j).checked = some w ∧ (s.pc j).side = some x := by
      rw [go_pc] at hj hside
      split_ifs at hj hside with hji
      · subst hji
        have hside' : (s.pc j).side = some x := by
          rcases hm.side with hnone | hsame
          · rw [hnone] at hside; cases hside
          · exact hsame ▸ hside
        rcases checked_of_pcStep hstep (h.fits j) (hc.blocking j) hj with
          hchecked | ⟨rfl, c, hpc, hfail⟩
        · exact ⟨hchecked, hside'⟩
        · rw [hpc] at hside'
          cases hside'
          exact absurd hbefore (not_available_of_attempt hfail)
      · exact ⟨hj, hside⟩
    have hcell' : s.cell x = some w := by
      rcases hm.cell (i := i) x with hsame | hnone | ⟨-, hnew, -⟩
      · exact hsame ▸ hcell
      · rw [hnone] at hcell; cases hcell
      -- a waker made in this step is not yet anybody's
      · rw [hnew] at hcell
        cases hcell
        have := (h.mine j _ (Pc.own_mem_mine (Pc.own_of_checked hold.1))).1
        exact absurd this (Nat.lt_irrefl _)
    obtain ⟨k, hk⟩ := hc.arrives j x w hold.1 hold.2 hcell' hbefore
    by_cases hki : k = i
    · subst hki
      rcases hk.fireStep hstep (hkind x) hcell' with ⟨-, hgoes⟩ | rfl
      · exact ⟨k, by rwa [setPc_pc_self]⟩
      · simp [St.apply] at hcell
    · exact ⟨k, by rwa [setPc_pc_of_ne hki, apply_pc]⟩
  -- it became available in this step
  · exact ⟨i, by
      rw [setPc_pc_self]
      exact arrives_of_available hstep (hc.blocking i) (hkind x) hbefore havailable⟩

/-- A step of a call. -/
theorem Covered.go (hc : Covered cfg s) (h : Held s) (hkind : ∀ x, cfg.kind x = .single)
    (hstep : PcStep cfg s i (s.pc i) e pc') : Covered cfg ((s.apply i e).setPc i pc') where
  blocking := forall_phase (fun j _ => by rw [apply_pc]; exact hc.blocking j)
    (blocking_of_pcStep hstep (hc.blocking i))
  arrives _ _ _ hj hside hcell havailable := hc.arrives_go h hkind hstep hj hside hcell havailable

theorem startPc_checked (c : Call) : (startPc c).checked = none := by
  fun_cases startPc c <;> rfl

theorem startPc_call (c : Call) : (startPc c).call = some c := by
  fun_cases startPc c <;> rfl

omit [Fintype ι] in
/-- The start of a call. -/
theorem Covered.call {c : Call} (hc : Covered cfg s) (hidle : s.pc i = .idle)
    (hblocking : c.isBlocking = true) : Covered cfg ((s.countMsg c).setPc i (startPc c)) := by
  have hpc : (s.countMsg c).pc = s.pc := by unfold St.countMsg; split_ifs <;> rfl
  have hcell : (s.countMsg c).cell = s.cell := by unfold St.countMsg; split_ifs <;> rfl
  have hqueue : (s.countMsg c).queue = s.queue := by unfold St.countMsg; split_ifs <;> rfl
  refine ⟨?_, ?_⟩
  · refine forall_phase (fun j _ => by rw [hpc]; exact hc.blocking j) fun c' hc' => ?_
    rw [startPc_call] at hc'
    cases hc'
    exact hblocking
  · intro j x w hj hside hw havailable
    by_cases hji : j = i
    · subst hji
      rw [setPc_pc_self, startPc_checked] at hj
      cases hj
    · rw [setPc_pc_of_ne hji, hpc] at hj hside
      rw [setPc_cell, hcell] at hw
      obtain ⟨k, hk⟩ := hc.arrives j x w hj hside hw ((available_congr hqueue x).mp havailable)
      have hki : k ≠ i := by
        rintro rfl
        rw [hidle] at hk
        cases hk
      exact ⟨k, by rwa [setPc_pc_of_ne hki, hpc]⟩

/-- Everything that holds in a run of blocking calls. -/
structure Steady (cfg : Cfg) (s : St ι) : Prop where
  held : Held s
  placed : Placed cfg s
  roused : Roused cfg s
  covered : Covered cfg s

/-- **Every action of blocking calls.** -/
theorem Steady.step {a : Act ι} (hs : Steady cfg s) (hkind : ∀ x, cfg.kind x = .single)
    (hok : blockingOk s a) (hstep : Channel.step cfg s a = some t) : Steady cfg t := by
  -- the queues of the registries are empty, so there is nothing to clear
  have hclear : clearOk s a := by
    cases a with
    | go i choice =>
      intro p _ v hv
      rw [hs.placed.queue p.1 (by rw [hkind]; exact nofun)] at hv
      cases hv
    | _ => trivial
  refine ⟨hs.held.step hstep, hs.placed.step hs.held hclear hstep,
    hs.roused.step hs.placed hs.held hstep, ?_⟩
  rcases step_cases hstep with ⟨i, choice, e, pc', rfl, hpc, rfl⟩ | hcall
  · exact hs.covered.go hs.held hkind hpc
  · cases hcall with
    | call i c pc => exact hs.covered.call pc hok
    | _ => exact hok.elim

theorem steady_of_reach (hkind : ∀ x, cfg.kind x = .single) (h : Reach (system cfg) blockingOk s) :
    Steady cfg s := by
  refine h.invariant (P := Steady cfg) ?_ fun _ _ _ hs hok hstep => hs.step hkind hok hstep
  rintro _ ⟨a, b, hab, rfl⟩
  exact ⟨held_new hab, placed_new a b, roused_new a b, ⟨nofun, nofun⟩⟩

end Invariant

/-! ## No lost wake-up -/

section Rest

variable {ι : Type}

/-- The agent is between two calls, or parked without a pending `unpark`. -/
def St.Rests (s : St ι) (i : ι) : Prop :=
  s.pc i = .idle ∨ ∃ c w, s.pc i = .park c w ∧ s.token i = false

theorem St.Rests.quiet {s : St ι} {i : ι} (h : s.Rests i) :
    (s.pc i).pops = none ∧ (s.pc i).rings = none ∧ ∀ x, ¬ Arrives x (s.pc i) := by
  rcases h with hpc | ⟨c, w, hpc, -⟩
  · rw [hpc]; exact ⟨rfl, rfl, nofun⟩
  · rw [hpc]; exact ⟨rfl, rfl, nofun⟩

variable [Fintype ι] {cfg : Cfg} {s : St ι}

/-- When every agent rests, a side with a parked waiter is not available. -/
theorem Steady.not_available (hs : Steady cfg s) (hkind : ∀ x, cfg.kind x = .single)
    (hrest : ∀ j, s.Rests j) {i : ι} {c : Call} {w : Nat} (hpark : s.pc i = .park c w)
    (htoken : s.token i = false) : ¬ s.available cfg c.side := by
  intro havailable
  have hfits : c.isBlocking = true := by
    have := hs.held.fits i
    rwa [hpark] at this
  have hnaps : (s.pc i).naps = some w := by rw [hpark]; exact if_pos hfits
  have hown : (s.pc i).own = some w := Pc.own_of_naps hnaps
  have hside : (s.pc i).side = some c.side := by rw [hpark]; rfl
  have hwaits : (s.waker w).state.isWoken = false := by
    by_contra hwoken
    rcases hs.roused.rung i w hnaps (Bool.not_eq_false _ |>.mp hwoken) with htrue | ⟨j, hj⟩
    · rw [htoken] at htrue; cases htrue
    · rw [(hrest j).quiet.2.1] at hj; cases hj
  rcases (hs.placed.own i w hown).mp hwaits with ⟨y, hlisted⟩ | ⟨j, y, hpops⟩
  · have hy : y = c.side :=
      (hs.held.listed y w hlisted).2.symm.trans (hs.held.side_of_mine (Pc.own_mem_mine hown) hside)
    subst hy
    rcases hlisted with hqueue | hcell
    · rw [hs.placed.queue _ (by rw [hkind]; exact nofun)] at hqueue
      cases hqueue
    · obtain ⟨j, hj⟩ := hs.covered.arrives i c.side w (by rw [hpark]; rfl) hside hcell havailable
      exact (hrest j).quiet.2.2 _ hj
  · rw [(hrest j).quiet.1] at hpops; cases hpops

/-- On a channel with one producer and one consumer that make blocking calls, whenever every agent
is between two calls or parked without a pending `unpark`: if the consumer is parked the queue is
empty, if the producer is parked the queue is full, and they are not both parked. -/
theorem single_no_lost_wake [DecidableEq ι] {n : Nat} (hkind : ∀ x, cfg.kind x = .single)
    (hcap : cfg.cap = some n) (hn : 1 ≤ n) (h : Reach (system cfg) blockingOk s)
    (hrest : ∀ j, s.Rests j) :
    (∀ i c w, s.pc i = .park c w → c.side = .rx → s.queue = []) ∧
      (∀ i c w, s.pc i = .park c w → c.side = .tx → n ≤ s.queue.length) ∧
        ∀ i j c c' w w', s.pc i = .park c w → s.pc j = .park c' w' → i = j := by
  have hs := steady_of_reach hkind h
  have hblocked {i : ι} {c : Call} {w : Nat} (hpark : s.pc i = .park c w) :
      ¬ s.available cfg c.side := by
    refine hs.not_available hkind hrest hpark ?_
    rcases hrest i with hidle | ⟨_, _, _, htoken⟩
    · rw [hpark] at hidle; cases hidle
    · exact htoken
  have hempty {i : ι} {c : Call} {w : Nat} (hpark : s.pc i = .park c w) (hside : c.side = .rx) :
      s.queue = [] := by
    have hnot := hblocked hpark
    rw [hside] at hnot
    exact not_not.mp hnot
  have hfull {i : ι} {c : Call} {w : Nat} (hpark : s.pc i = .park c w) (hside : c.side = .tx) :
      n ≤ s.queue.length := by
    have hnot := hblocked hpark
    simpa [hside, St.available, isFull, hcap] using hnot
  refine ⟨fun i c w => hempty, fun i c w => hfull, fun i j c c' w w' hi hj => ?_⟩
  have hone {x : Side} (hx : c.side = x) (hx' : c'.side = x) : i = j := by
    have hi' : s.handle i = some x := hs.held.side i x (by rw [hi, ← hx]; rfl)
    have hj' : s.handle j = some x := hs.held.side j x (by rw [hj, ← hx']; rfl)
    exact hs.held.handle_unique (hs.placed.alone x (hkind x)) hi' hj'
  -- a parked consumer has seen the queue empty and a parked producer has seen it full
  have hnot (hqueue : s.queue = []) (hroom : n ≤ s.queue.length) : False := by
    rw [hqueue, List.length_nil] at hroom
    omega
  cases hx : c.side <;> cases hx' : c'.side
  · exact hone hx hx'
  · exact (hnot (hempty hj hx') (hfull hi hx)).elim
  · exact (hnot (hempty hi hx) (hfull hj hx')).elim
  · exact hone hx hx'

end Rest

/-- An SPSC channel of capacity 1. -/
def spscCfg : Cfg := ⟨some 1, fun _ => .single, (· == ·), false⟩

/-- The producer holds the first waker of the consumer while the consumer takes the message, returns
and parks in its next call. The late wake makes it look once more; it parks again and the queue is
empty. -/
theorem single_no_lost_wake_late : ∃ s : St Bool, Reach (system spscCfg) blockingOk s ∧
    (s.pc true = .park (.recv false) 1 ∧ s.taken = [0]) ∧ s.queue = [] := by
  have hnew : Reach (system spscCfg) blockingOk (St.new false true) :=
    .init ⟨false, true, nofun, rfl⟩
  obtain ⟨s, hs, hidle, htoken, hpark, htaken⟩ := hnew.exists_of_run
    [.call true (.recv false), .go true true, .go true true, .go true false, .go true false,
      .go true false, .call false (.send 0 false), .go false false, .go false false,
      .go false false, .go false false, .go false false,
      -- `park` returns without reason, and the cell is empty
      .go true true, .go true false, .go true false, .go true false, .go true false,
      .call true (.recv false), .go true true, .go true true, .go true false, .go true false,
      .go true false,
      -- the late wake
      .go false false, .go false false, .go false false, .go false false,
      .go true false, .go true false]
    (fun s => s.pc false = .idle ∧ s.token true = false ∧
      s.pc true = .park (.recv false) 1 ∧ s.taken = [0]) (by decide +kernel)
  have hrest (j : Bool) : s.Rests j := by
    cases j with
    | false => exact .inl hidle
    | true => exact .inr ⟨_, _, hpark, htoken⟩
  have hempty := (single_no_lost_wake (fun _ => rfl) rfl (Nat.le_refl 1) hs hrest).1
  exact ⟨s, hs, ⟨hpark, htaken⟩, hempty true _ _ hpark rfl⟩

end Crossfire.Channel
