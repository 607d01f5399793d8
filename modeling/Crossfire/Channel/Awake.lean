import Crossfire.Channel.Closing

/-!
# The waiter of a side with one handle is not forgotten

A side with a `RegistrySingle` may wait in any way: in blocking calls, with or without a deadline,
in futures, streams and sinks that are polled again or dropped, while the other side has any
registry and any number of handles. As in `Single` the cell is the registration. A waiter that still
stands in the cell after its failed double check can count on an agent that has not looked at the
cell yet, or that holds a token of `try_select` for the message it took out (`Attended`). With
`Placed`, `Roused` and `Rescued` this gives `single_awake`: when nobody is in the middle of an
operation, a waiter that is asleep has nothing to wait for, and the other side is still there.

A token that is dropped without being read makes room that no sender is told of.
-/

set_option autoImplicit false

namespace Crossfire.Channel

open Lib.Interleaving Crossfire.Waker Crossfire.Registry

/-- The waker of a poll that is going to return `Pending`. -/
def Cont.lingers : Cont → Option Nat
  | .keep _ w .pending => some w
  | _ => none

/-- The registered waker of an agent that waits, or goes to wait, since its double check failed. -/
def Pc.lingers : Pc → Option Nat
  | .commit _ w | .closed _ w _ | .congest _ w | .snooze _ w | .deadline _ w | .park _ w
  | .state _ w | .keep _ w .pending | .pending _ w => some w
  -- the way back to `Pending` of a side with a `RegistryMulti`
  | .recas _ w => some w
  | .fire _ _ k => k.lingers
  | _ => none

/-- The agent has yet to look at the cell of side `x`. -/
inductive Comes (x : Side) : Pc → Prop
  | arrives (pc : Pc) (goes : Arrives x pc) : Comes x pc
  /-- `read_select` is still to come. -/
  | token (m : Nat) (side : x = .tx) : Comes x (.held (some m))

theorem Cont.own_of_lingers {k : Cont} {w : Nat} (h : k.lingers = some w) : k.own = some w := by
  cases k with
  | keep c v r =>
    cases r with
    | pending => exact h
    | _ => cases h
  | _ => cases h

theorem Pc.own_of_lingers {pc : Pc} {w : Nat} (h : pc.lingers = some w) : pc.own = some w := by
  cases pc with
  | keep c v r =>
    cases r with
    | pending => exact h
    | _ => cases h
  | fire x f k => exact Cont.own_of_lingers h
  | _ => first | exact h | cases h

theorem Cont.lingers_pc (k : Cont) : k.pc.lingers = k.lingers := by
  cases k with
  | keep c v r => cases r <;> rfl
  | _ => rfl

section Steps

variable {ι : Type} [Fintype ι] {cfg : Cfg} {s : St ι} {i : ι} {e : Eff} {pc pc' : Pc} {x : Side}
  {c : Call} {k : Cont} {w m : Nat}

theorem Fires.lingers (h : Fires cfg x k pc') : pc'.lingers = k.lingers := by
  cases h with
  | dummy => exact k.lingers_pc
  | fire => rfl

theorem Tries.lingers {k : Ret → Cont} (h : Tries pc c k) : (k (.ok m)).lingers = none := by
  cases h <;> rfl

theorem Sleeps.lingers (h : Sleeps c w pc') : pc'.lingers = some w := by cases h <;> rfl

theorem Settles.lingers {state : WakerState} (h : Settles c w state pc') {v : Nat}
    (hv : pc'.lingers = some v) : v = w := by
  cases h with
  | sleep _ _ goes => exact (Option.some.inj (goes.lingers.symm.trans hv)).symm
  | _ => cases hv

theorem Wakes.lingers {rest : Rest} {result : WakeResult} (h : Wakes x w k rest result pc') :
    pc'.lingers = k.lingers := by
  cases h with
  | leave => exact k.lingers_pc
  | _ => rfl

theorem fireStep_lingers {f : FirePc} (h : FireStep cfg s x k f e pc') :
    pc'.lingers = k.lingers := by
  cases h with
  | skip _ _ _ _ _ _ goes | wakeByRef _ _ _ _ goes => exact goes.lingers
  | _ => first | rfl | exact k.lingers_pc

/-- An agent of a side without a `RegistryMulti` that waits did so before, or its double check fails
now. -/
theorem lingers_of_pcStep (h : PcStep cfg s i pc e pc') (hfits : pc.Fits)
    (hside : pc.side = some x) (hkind : cfg.kind x ≠ .multi) (hw : pc'.lingers = some w) :
    pc.lingers = some w ∨ e = .skip ∧ ∃ c, pc = .double c w ∧ attempt cfg s c = none := by
  have hcont {k : Cont} (hk : k.lingers = some w) (hown : k.own = none) : False := by
    rw [Cont.own_of_lingers hk] at hown
    cases hown
  cases h with
  | recv _ _ _ _ _ _ tries _ _ goes | send _ _ _ _ _ tries _ _ _ goes =>
    rw [goes.lingers, tries.lingers] at hw; cases hw
  | doubleCommit c _ fail | doubleSkip c _ fail => cases hw; exact .inr ⟨rfl, c, rfl, fail⟩
  | spinRecas c v fail kind =>
    cases hside
    exact absurd kind hkind
  | closedSettle _ _ _ _ _ _ goes | snoozeWoken _ _ _ _ goes | state _ _ _ goes =>
    exact .inl (by rw [goes.lingers hw]; rfl)
  | congestNot c v _ goes | snoozeDone c v _ goes => exact .inl (goes.lingers.symm.trans hw)
  | commit | congest | snooze | deadline | park | closedKeep | keepPending | recasClosed | recasSame
  | recasPending => exact .inl hw
  | reuseWoken c v target state =>
    rw [Cont.lingers_pc] at hw
    cases state <;> cases hw
  | reuse c v target =>
    rw [Cont.lingers_pc] at hw
    cases target <;> cases hw
  | clearSkip | clearLock | abandonErr =>
    rw [Cont.lingers_pc] at hw
    exact (hcont hw hfits.2).elim
  | abandonFire x v expected k _ goes =>
    rw [goes.lingers] at hw
    exact (hcont hw hfits.2).elim
  | fire x f k _ _ step => exact .inl ((fireStep_lingers step).symm.trans hw)
  | close x f _ _ step => cases step <;> cases hw
  | _ => cases hw

/-- An agent that has yet to look at a filled cell stays so until it empties the cell. -/
theorem Comes.pcStep (h : Comes x pc) (hstep : PcStep cfg s i pc e pc')
    (hkind : cfg.kind x = .single) (hcell : s.cell x = some w) :
    Comes x pc' ∨ e = .cell x none := by
  cases h with
  | arrives _ goes =>
    rcases goes.fireStep hstep hkind hcell with ⟨-, hgoes⟩ | heff
    · exact .inl (.arrives _ hgoes)
    · exact .inr heff
  | token m side =>
    cases hstep with
    | recv _ _ _ _ _ _ tries => cases tries
    | send _ _ _ _ _ tries => cases tries

/-- Who makes a side available goes on to `fire` its registry, or keeps a token for it. -/
theorem comes_of_available [DecidableEq ι] (h : PcStep cfg s i pc e pc')
    (hkind : cfg.kind x = .single) (hnot : ¬ s.available cfg x)
    (hafter : (s.apply i e).available cfg x) : Comes x pc' := by
  have hne : cfg.kind x ≠ .dummy := by rw [hkind]; exact nofun
  have hfires {y : Side} {k : Cont} (hy : y.other = x) (hgoes : Fires cfg y.other k pc') :
      Comes x pc' := by
    rw [hy] at hgoes
    cases hgoes with
    | dummy kind => exact absurd kind hne
    | fire => exact .arrives _ (.first k)
  cases e with
  | pop =>
    cases x with
    | rx =>
      -- a receive leaves fewer messages
      have hnil : s.queue = [] := not_not.mp hnot
      exact absurd (by simp [St.apply, hnil]) hafter
    | tx =>
      cases h with
      | recv _ c k m rest _ tries side queue goes => exact hfires (by rw [side]; rfl) goes
      | selectClaim final closed m => exact .token m rfl
      | fire _ _ _ _ _ step => cases step
      | close _ _ _ _ step => cases step
  | push m =>
    cases h with
    | send _ c k m _ tries side msg room goes =>
      cases x with
      | rx => exact hfires (by rw [side]; rfl) goes
      | tx => exact absurd room hnot
    | fire _ _ _ _ _ step => cases step
    | close _ _ _ _ step => cases step
  | wakeByRef v =>
    refine absurd ((available_congr ?_ x).mp hafter) hnot
    rw [apply_wakeByRef]
  | _ => exact absurd ((available_congr rfl x).mp hafter) hnot

end Steps

/-! ## The invariant -/

section Invariant

variable {ι : Type} [DecidableEq ι] [Fintype ι] {cfg : Cfg} {s t : St ι} {i : ι} {e : Eff}
  {pc' : Pc} {x : Side} {w : Nat}

/-- A waker left in the cell of the available side `x` has an agent that comes to it. -/
def Attended (cfg : Cfg) (x : Side) (s : St ι) : Prop :=
  ∀ i w, (s.pc i).lingers = some w → (s.pc i).side = some x → s.cell x = some w →
    s.available cfg x → ∃ j, Comes x (s.pc j)

/-- A step of a call. -/
theorem Attended.go (ha : Attended cfg x s) (h : Held s) (hkind : cfg.kind x = .single)
    (hstep : PcStep cfg s i (s.pc i) e pc') : Attended cfg x ((s.apply i e).setPc i pc') := by
  intro j w hj hside hcell havailable
  have hm : Move cfg s (s.pc i) e pc' := move_of_pcStep hstep (h.fits i)
  by_cases hbefore : s.available cfg x
  · -- the waiter had seen its double check fail before
    have hold : (s.pc j).lingers = some w ∧ (s.pc j).side = some x := by
      rw [go_pc] at hj hside
      split_ifs at hj hside with hji
      · subst hji
        have hside' : (s.pc j).side = some x := by
          rcases hm.side with hnone | hsame
          · rw [hnone] at hside; cases hside
          · exact hsame ▸ hside
        rcases lingers_of_pcStep hstep (h.fits j) hside' (by rw [hkind]; exact nofun) hj with
          hlingers | ⟨rfl, c, hpc, hfail⟩
        · exact ⟨hlingers, hside'⟩
        · rw [hpc] at hside'
          cases hside'
          exact absurd hbefore (not_available_of_attempt hfail)
      · exact ⟨hj, hside⟩
    have hcell' : s.cell x = some w := by
      rcases hm.cell (i := i) x with hsame | hnone | ⟨-, hnew, -⟩
      · exact hsame ▸ hcell
      · have hcell : (s.apply i e).cell x = some w := hcell
        rw [hnone] at hcell; cases hcell
      · -- a waker made in this step is not yet anybody's
        have hcell : (s.apply i e).cell x = some w := hcell
        rw [hnew] at hcell
        cases hcell
        have := (h.mine j _ (Pc.own_mem_mine (Pc.own_of_lingers hold.1))).1
        exact absurd this (Nat.lt_irrefl _)
    obtain ⟨k, hk⟩ := ha j w hold.1 hold.2 hcell' hbefore
    by_cases hki : k = i
    · subst hki
      rcases hk.pcStep hstep hkind hcell' with hgoes | rfl
      · exact ⟨k, by rwa [setPc_pc_self]⟩
      · simp [St.apply] at hcell
    · exact ⟨k, by rwa [setPc_pc_of_ne hki, apply_pc]⟩
  · -- it became available in this step
    exact ⟨i, by
      rw [setPc_pc_self]
      exact comes_of_available hstep hkind hbefore havailable⟩

omit [Fintype ι] in
/-- An agent that goes on without a waker to wait for, and that nobody counts on or that still
comes. -/
theorem Attended.setPc (ha : Attended cfg x s) (hlingers : pc'.lingers = none)
    (hcomes : Comes x (s.pc i) → Comes x pc') : Attended cfg x (s.setPc i pc') := by
  intro j w hj hside hcell havailable
  have hji : j ≠ i := by
    rintro rfl
    rw [setPc_pc_self, hlingers] at hj
    cases hj
  rw [setPc_pc_of_ne hji] at hj hside
  obtain ⟨k, hk⟩ := ha j w hj hside hcell havailable
  by_cases hki : k = i
  · subst hki
    exact ⟨k, by rw [setPc_pc_self]; exact hcomes hk⟩
  · exact ⟨k, by rwa [setPc_pc_of_ne hki]⟩

omit [DecidableEq ι] [Fintype ι] in
/-- What the invariant does not look at. -/
theorem Attended.congr (ha : Attended cfg x s) (hpc : t.pc = s.pc) (hcell : t.cell = s.cell)
    (hqueue : t.queue = s.queue) : Attended cfg x t := by
  intro j w hj hside hw havailable
  rw [hpc] at hj hside ⊢
  exact ha j w hj hside (hcell ▸ hw) ((available_congr hqueue x).mp havailable)

omit [DecidableEq ι] [Fintype ι] in
theorem Attended.countMsg (ha : Attended cfg x s) (c : Call) : Attended cfg x (s.countMsg c) := by
  unfold St.countMsg
  split_ifs
  · exact ha.congr rfl rfl rfl
  · exact ha

theorem startPc_lingers (c : Call) : (startPc c).lingers = none := by
  fun_cases startPc c <;> rfl

/-- The condition of `Placed`, and a token for a message whose room the senders wait for is not
dropped. -/
def awakeOk (x : Side) (s : St ι) : Act ι → Prop
  | .dropToken _ => x = .rx
  | a => clearOk s a

instance (s : St ι) (a : Act ι) : Decidable (awakeOk x s a) := by
  cases a <;> unfold awakeOk <;> infer_instance

omit [DecidableEq ι] in
theorem clearOk_of_awakeOk {a : Act ι} (h : awakeOk x s a) : clearOk s a := by
  cases a with
  | dropToken i => trivial
  | _ => exact h

/-- The start of a call. -/
theorem Attended.call {a : Act ι} (ha : Attended cfg x s) (hkind : cfg.kind x = .single)
    (hok : awakeOk x s a) (hstep : CallStep cfg s a t) : Attended cfg x t := by
  have hcount (c : Call) : (s.countMsg c).pc = s.pc := by unfold St.countMsg; split_ifs <;> rfl
  have hkept {i : ι} {c : Call} {w : Nat} (hpc : s.pc i = .pending c w ∨ s.pc i = .kept c w) :
      ¬ Comes x (s.pc i) := by
    rcases hpc with hpc | hpc <;> rw [hpc] <;> rintro ⟨_, ⟨⟩⟩
  have hidle {i : ι} (hpc : s.pc i = .idle) : ¬ Comes x (s.pc i) := by
    rw [hpc]
    rintro ⟨_, ⟨⟩⟩
  cases hstep with
  | call i c pc handle msg =>
    refine (ha.countMsg c).setPc (startPc_lingers c) fun hcomes => ?_
    rw [hcount] at hcomes
    exact absurd hcomes (hidle pc)
  | poll i c c' w _ pc next =>
    refine (ha.countMsg c').setPc (by cases next <;> rfl) fun hcomes => ?_
    rw [hcount] at hcomes
    exact absurd hcomes (hkept pc)
  | dropFuture i c w pc kind | dropSingle i c w pc kind =>
    exact ha.setPc rfl fun hcomes => absurd hcomes (hkept pc)
  | dropHandle | clone | regSelect | cancelSelect => exact ha.congr rfl rfl rfl
  | dropLast i y _ pc handle alone goes =>
    have ha' : Attended cfg x (s.dropHandle y i) := ha.congr rfl rfl rfl
    exact ha'.setPc (by cases goes <;> rfl) fun hcomes => absurd hcomes (hidle pc)
  | readTaken i m _ pc goes =>
    refine ha.setPc (by rw [goes.lingers]; rfl) fun hcomes => ?_
    rw [pc] at hcomes
    cases hcomes with
    | arrives _ goes' => cases goes'
    | token m side =>
      subst side
      cases goes with
      | dummy kind => rw [hkind] at kind; cases kind
      | fire => exact .arrives _ (.first _)
  | readToken i pc =>
    refine ha.setPc rfl fun hcomes => ?_
    rw [pc] at hcomes
    cases hcomes with
    | arrives _ goes => cases goes
  | dropToken i m pc =>
    refine ha.setPc rfl fun hcomes => ?_
    rw [pc] at hcomes
    cases hcomes with
    | arrives _ goes => cases goes
    | token m side =>
      rw [show x = .rx from hok] at side
      cases side

/-- Everything that holds in such a run. -/
structure Watchful (cfg : Cfg) (x : Side) (s : St ι) : Prop where
  held : Held s
  placed : Placed cfg s
  roused : Roused cfg s
  attended : Attended cfg x s

/-- **Somebody attends to the waiter, in every run.** -/
theorem watchful_of_reach (hkind : cfg.kind x = .single) (h : Reach (system cfg) (awakeOk x) s) :
    Watchful cfg x s := by
  refine h.invariant (P := Watchful cfg x) ?_ fun s a t hs hok hstep => ?_
  · rintro _ ⟨a, b, hab, rfl⟩
    exact ⟨held_new hab, placed_new a b, roused_new a b, nofun⟩
  · refine ⟨hs.held.step hstep, hs.placed.step hs.held (clearOk_of_awakeOk hok) hstep,
      hs.roused.step hs.placed hs.held hstep, ?_⟩
    rcases step_cases hstep with ⟨i, choice, e, pc', rfl, hpc, rfl⟩ | hcall
    · exact hs.attended.go hs.held hkind hpc
    · exact hs.attended.call hkind hok hcall

/-! ## Nobody sleeps on an available queue -/

/-- The agent is parked without a pending `unpark`, or its last poll returned `Pending` and its task
was not woken since. -/
inductive St.Asleep (s : St ι) (i : ι) (c : Call) (w : Nat) : Prop
  | parked (pc : s.pc i = .park c w) (token : s.token i = false)
  | pending (pc : s.pc i = .pending c w) (quiet : (s.waker w).issued = false)

theorem Comes.not_quiet {pc : Pc} (h : Comes x pc) (htoken : ∀ m, x = .tx → pc ≠ .held (some m)) :
    pc.isQuiet = false := by
  cases h with
  | arrives _ goes => cases goes <;> rfl
  | token m side => exact absurd rfl (htoken m side)

omit [DecidableEq ι] in
/-- The waker of an agent that is asleep still waits. -/
theorem Watchful.waits {c : Call} (hs : Watchful cfg x s) (hquiet : ∀ j, (s.pc j).isQuiet = true)
    (hasleep : s.Asleep i c w) :
    (s.pc i).lingers = some w ∧ (s.pc i).side = some c.side ∧
      (s.waker w).state.isWoken = false := by
  have hsilent {j : ι} (hj : (s.pc j).rings = some w) : False := by
    rw [Pc.rings_of_isQuiet (hquiet j)] at hj
    cases hj
  cases hasleep with
  | parked pc token =>
    have hfits : c.isBlocking = true := by
      have := hs.held.fits i
      rwa [pc] at this
    have hnaps : (s.pc i).naps = some w := by rw [pc]; exact if_pos hfits
    refine ⟨by rw [pc]; rfl, by rw [pc]; rfl, Bool.eq_false_of_not_eq_true fun hwoken => ?_⟩
    rcases hs.roused.rung i w hnaps hwoken with htrue | ⟨j, hj⟩
    · rw [token] at htrue; cases htrue
    · exact hsilent hj
  | pending pc quiet =>
    refine ⟨by rw [pc]; rfl, by rw [pc]; rfl, Bool.eq_false_of_not_eq_true fun hwoken => ?_⟩
    rcases hs.placed.rung i w (by rw [pc]; rfl) hwoken with hissued | ⟨j, hj⟩
    · rw [quiet] at hissued; cases hissued
    · exact hsilent hj

/-- **The waiter of a side with one handle is not forgotten**, whatever calls the agents make and
whatever registry the other side has. When nobody is in the middle of an operation and no token is
held for a message that was taken out, a waiter that is asleep has nothing to receive, or no room to
send, and the other side is still there. -/
theorem single_awake {c : Call} (hkind : cfg.kind x = .single)
    (h : Reach (system cfg) (awakeOk x) s) (hquiet : ∀ j, (s.pc j).isQuiet = true)
    (htoken : ∀ j m, x = .tx → s.pc j ≠ .held (some m)) (hasleep : s.Asleep i c w)
    (hside : c.side = x) : ¬ s.available cfg x ∧ s.cnt x.other ≠ 0 := by
  subst hside
  have hs := watchful_of_reach hkind h
  obtain ⟨hlingers, hcall, hwaits⟩ := hs.waits hquiet hasleep
  have hown := Pc.own_of_lingers hlingers
  have hlisted : s.listed c.side w := by
    rcases (hs.placed.own i w hown).mp hwaits with ⟨y, hlisted⟩ | ⟨j, y, hpops⟩
    · have hy : y = c.side := (hs.held.listed y w hlisted).2.symm.trans
        (hs.held.side_of_mine (Pc.own_mem_mine hown) hcall)
      exact hy ▸ hlisted
    · rw [Pc.pops_of_isQuiet (hquiet j)] at hpops
      cases hpops
  have hcell : s.cell c.side = some w := by
    rcases hlisted with hqueue | hcell
    · rw [hs.placed.queue _ (by rw [hkind]; exact nofun)] at hqueue
      cases hqueue
    · exact hcell
  refine ⟨fun havailable => ?_, fun hgone => ?_⟩
  · obtain ⟨j, hj⟩ := hs.attended i w hlingers hcall hcell havailable
    have hbusy := hj.not_quiet (htoken j)
    rw [hquiet j] at hbusy
    cases hbusy
  · have hsleeps : (s.pc i).sleeps = some w := by
      cases hasleep with
      | parked pc | pending pc => rw [pc]; rfl
    obtain ⟨j, hj⟩ := rescued_of_reach (h.mono fun _ _ => clearOk_of_awakeOk) c.side
      (by rw [hkind]; exact nofun) hgone i w hsleeps hlisted
    have hbusy := hj.not_quiet
    rw [hquiet j] at hbusy
    cases hbusy

end Invariant

/-- A bounded MPSC channel of capacity 1. -/
def mpscCfg : Cfg := ⟨some 1, fun | .tx => .multi | .rx => .single, (· == ·), true⟩

/-- The receiver waits in a future, is woken, takes the message and waits in a stream. -/
theorem single_awake_stream : ∃ s : St (Fin 3), Reach (system mpscCfg) (awakeOk .rx) s ∧
    (s.pc 1 = .pending (.pollItem true 8) 1 ∧ s.taken = [0] ∧ s.cnt .tx = 2) ∧
      ¬ s.available mpscCfg .rx ∧ s.cnt Side.rx.other ≠ 0 := by
  have hnew : Reach (system mpscCfg) (awakeOk .rx) (St.new (0 : Fin 3) 1) :=
    .init ⟨0, 1, by decide, rfl⟩
  obtain ⟨s, hs, hquiet, hissued, hend⟩ := hnew.exists_of_run
    (.clone 0 2 :: .call 1 (.pollItem false 7) :: List.replicate 5 (.go 1 true) ++
      .call 0 (.send 0 false) :: List.replicate 9 (.go 0 false) ++
      .poll 1 (.pollItem false 7) :: List.replicate 4 (.go 1 true) ++
      .call 1 (.pollItem true 8) :: List.replicate 5 (.go 1 true))
    (fun s => (∀ j, (s.pc j).isQuiet = true) ∧ (s.waker 1).issued = false ∧
      s.pc 1 = .pending (.pollItem true 8) 1 ∧ s.taken = [0] ∧ s.cnt .tx = 2) (by decide +kernel)
  exact ⟨s, hs, hend, single_awake (x := .rx) rfl hs hquiet nofun (.pending hend.1 hissued) rfl⟩

/-- A parked sender is not told of the room that a dropped token leaves. -/
example : ∃ s : St Bool, Reachable (system ⟨some 1, fun _ => .single, (· == ·), true⟩) s ∧
    s.pc false = .park (.send 1 false) 0 ∧ s.token false = false ∧ s.pc true = .idle ∧
      s.queue = [] := by
  have hnew : Reachable (system ⟨some 1, fun _ => .single, (· == ·), true⟩) (St.new false true) :=
    .init ⟨false, true, nofun, rfl⟩
  exact hnew.exists_of_run
    (.call false (.send 0 false) :: List.replicate 4 (.go false false) ++
      .call false (.send 1 false) :: List.replicate 3 (.go false true) ++
      List.replicate 3 (.go false false) ++ [.call true (.trySelect false), .go true false,
        .dropToken true]) _ (by decide +kernel)

end Crossfire.Channel
