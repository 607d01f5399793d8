import Crossfire.Channel.Clearing
import Crossfire.Channel.Single

/-!
# Closing a channel wakes every waiter

The last handle of a side closes the registry of the other side. A waiter that has seen an open
channel and still stands in that registry can count on the closing agent: as long as the waiter is
there, the agent has not drained the registry (`Rescued`). A waiter that registers later sees that
the channel is closed before it waits. With `Placed` this gives `close_wakes_waiters`.

Like `Placed` this rests on `_clear_wakers` finding its own waker. When the 32-bit numbers come
around it may take away another one, which `close` then does not find (`close_leaves_waiter`).
-/

set_option autoImplicit false

namespace Crossfire.Channel

open Lib.Interleaving Crossfire.Waker Crossfire.Registry Function

/-! ## Who waits without another look at the handles -/

/-- The waker that the call is going to keep. -/
def Cont.sleeps : Cont → Option Nat
  | .keep _ w .pending => some w
  | .spin (.pollSend _ _ _) o => o
  | _ => none

/-- The registered waker of an agent that goes to wait, or back to wait, without looking again
whether the other side is gone. -/
def Pc.sleeps : Pc → Option Nat
  | .pending _ w | .keep _ w .pending | .congest _ w | .snooze _ w | .deadline _ w | .park _ w
  | .state _ w => some w
  | .spin (.pollSend _ _ _) o => o
  -- a send that polls again returns `Pending` if its waker still waits
  | .recas (.pollSend _ _ _) w => some w
  | .fire _ _ k => k.sleeps
  | _ => none

theorem Cont.own_of_sleeps {k : Cont} {w : Nat} (h : k.sleeps = some w) : k.own = some w := by
  cases k with
  | keep c v r =>
    cases r with
    | pending => exact h
    | _ => cases h
  | spin c o =>
    cases c with
    | pollSend m sink t => exact h
    | _ => cases h
  | _ => cases h

variable {pc : Pc}

theorem Pc.own_of_sleeps {w : Nat} (h : pc.sleeps = some w) : pc.own = some w := by
  cases pc with
  | keep c v r =>
    cases r with
    | pending => exact h
    | _ => cases h
  | spin c | recas c =>
    cases c with
    | pollSend m sink t => exact h
    | _ => cases h
  | fire x f k => exact Cont.own_of_sleeps h
  | _ => first | exact h | cases h

theorem Cont.sleeps_pc (k : Cont) : k.pc.sleeps = k.sleeps := by
  cases k with
  | keep c v r => cases r <;> rfl
  | spin c o => cases c <;> rfl
  | _ => rfl

section Steps

variable {ι : Type} [Fintype ι] {cfg : Cfg} {s : St ι} {i : ι} {e : Eff} {pc pc' : Pc} {x : Side}
  {c : Call} {k : Cont} {v w m : Nat}

theorem Fires.sleeps (h : Fires cfg x k pc') : pc'.sleeps = k.sleeps := by
  cases h with
  | dummy => exact k.sleeps_pc
  | fire => rfl

/-- An agent whose try succeeds is not going to wait. -/
theorem Tries.sleeps {k : Ret → Cont} (h : Tries pc c k) : (k (.ok m)).sleeps = none := by
  cases h <;> rfl

theorem Sleeps.sleeps (h : Sleeps c w pc') : pc'.sleeps = some w := by cases h <;> rfl

theorem Settles.sleeps {state : WakerState} (h : Settles c v state pc') (hw : pc'.sleeps = some w) :
    v = w := by
  cases h with
  | spin =>
    cases c with
    | pollSend => exact Option.some.inj hw
    | _ => cases hw
  | sleep _ _ goes => exact Option.some.inj (goes.sleeps.symm.trans hw)
  | _ => cases hw

theorem Wakes.sleeps {rest : Rest} {result : WakeResult} (h : Wakes x w k rest result pc') :
    pc'.sleeps = k.sleeps := by
  cases h with
  | leave => exact k.sleeps_pc
  | _ => rfl

theorem fireStep_sleeps {f : FirePc} (h : FireStep cfg s x k f e pc') : pc'.sleeps = k.sleeps := by
  cases h with
  | skip _ _ _ _ _ _ goes | wakeByRef _ _ _ _ goes => exact goes.sleeps
  | _ => first | rfl | exact k.sleeps_pc

/-- An agent that goes to wait did so before, or it has just seen that the other side is there, or
its waker is woken. -/
theorem sleeps_of_pcStep (h : PcStep cfg s i pc e pc') (hfits : pc.Fits)
    (hw : pc'.sleeps = some w) :
    pc.sleeps = some w ∨ (∃ x, pc.side = some x ∧ s.cnt x.other ≠ 0) ∨
      pc.own = some w ∧ (s.waker w).state.isWoken = true := by
  -- who sleeps owns the waker
  have hcont {k : Cont} (hk : k.sleeps = some w) (hown : k.own = none) : False := by
    rw [Cont.own_of_sleeps hk] at hown
    cases hown
  cases h with
  | recv _ _ _ _ _ _ tries _ _ goes | send _ _ _ _ _ tries _ _ _ goes =>
    rw [goes.sleeps, tries.sleeps] at hw; cases hw
  | pollOpen c o here =>
    exact .inr (.inl ⟨.tx, by rw [← hfits.1]; rfl, here⟩)
  | sendFail c o blocking =>
    cases c with
    | pollSend => cases blocking
    | _ => cases hw
  | startFail c => cases c <;> cases hw
  | spinAgain => exact .inl hw
  | congest | snooze | deadline | park | keepPending => exact .inl hw
  | spinRecas c v =>
    cases c with
    | pollSend => exact .inl hw
    | _ => cases hw
  | recasPending c v state side =>
    cases c with
    | pollSend => exact .inl hw
    | recv | pollItem | tryRecv | trySelect => cases side
    | send | trySend => cases hfits.1 <;> cases hfits.2
  | commitWoken c v state async =>
    cases c with
    | pollSend =>
      cases hw
      exact .inr (.inr ⟨rfl, by rw [state]; rfl⟩)
    | _ => cases hw
  | closedKeep c _ _ here | closedSpin c _ here | closedSettle c _ _ _ here =>
    exact .inr (.inl ⟨c.side, rfl, here⟩)
  | congestNot c v _ goes | snoozeDone c v _ goes => exact .inl (goes.sleeps.symm.trans hw)
  | snoozeWoken c v _ state goes | state c v _ goes =>
    exact .inl (congrArg some (goes.sleeps hw))
  | reuseWoken c v target state kind woken hstate =>
    rw [Cont.sleeps_pc] at hw
    cases state with
    | woken =>
      cases c with
      | pollSend =>
        cases hw
        exact .inr (.inr ⟨rfl, woken⟩)
      | _ => cases hw
    | _ => cases hw
  | reuse c v target kind =>
    rw [Cont.sleeps_pc] at hw
    cases target with
    | woken => cases c <;> cases hw
    | _ => cases hw
  | clearSkip | clearLock | abandonErr =>
    rw [Cont.sleeps_pc] at hw
    exact (hcont hw hfits.2).elim
  | abandonFire y v expected k _ goes =>
    rw [goes.sleeps] at hw
    exact (hcont hw hfits.2).elim
  | fire y f k _ _ step => exact .inl ((fireStep_sleeps step).symm.trans hw)
  | close y f _ _ step => cases step <;> cases hw
  | _ => cases hw

end Steps

/-! ## Who wakes the waiters of a closed channel -/

/-- The agent has not yet drained the registry of side `x`. -/
inductive Rescues (cfg : Cfg) (x : Side) : Pc → Prop
  | close (f : ClosePc) (kind : cfg.kind x = .multi) (hf : f ≠ .store) : Rescues cfg x (.close x f)
  | arrives (pc : Pc) (kind : cfg.kind x = .single) (goes : Arrives x pc) : Rescues cfg x pc

/-- The agent is not inside a call, or it is parked. -/
def Pc.isQuiet : Pc → Bool
  | .idle | .pending _ _ | .kept _ _ | .held _ | .park _ _ | .panicked => true
  | _ => false

theorem Rescues.not_quiet {cfg : Cfg} {x : Side} (h : Rescues cfg x pc) : pc.isQuiet = false := by
  cases h with
  | close => rfl
  | arrives _ _ goes => cases goes <;> rfl

theorem Pc.pops_of_isQuiet (h : pc.isQuiet = true) : pc.pops = none := by
  cases pc <;> first | rfl | cases h

theorem Pc.rings_of_isQuiet (h : pc.isQuiet = true) : pc.rings = none := by
  cases pc <;> first | rfl | cases h

/-- Where the last handle of the other side goes. -/
theorem Closes.rescues {cfg : Cfg} {x : Side} (h : Closes cfg x pc)
    (hkind : cfg.kind x ≠ .dummy) : Rescues cfg x pc := by
  cases h with
  | multi kind => exact .close .lock kind nofun
  | single kind =>
    refine .arrives _ ?_ (.first .idle)
    cases hx : cfg.kind x with
    | dummy => exact absurd hx hkind
    | single => rfl
    | multi => exact absurd hx kind
  | dummy kind => exact absurd kind hkind

section Invariant

variable {ι : Type} [DecidableEq ι] [Fintype ι]

/-- Once a side is gone, an agent of the other side that waits in its registry has an agent that is
going to drain it. -/
def Rescued (cfg : Cfg) (s : St ι) : Prop :=
  ∀ x, cfg.kind x ≠ .dummy → s.cnt x.other = 0 → ∀ i w, (s.pc i).sleeps = some w →
    s.listed x w → ∃ j, Rescues cfg x (s.pc j)

variable {cfg : Cfg} {s t : St ι} {i : ι} {e : Eff} {pc pc' : Pc} {x : Side} {w : Nat}

/-- The agent goes on as long as a waker stands in the registry. -/
theorem Rescues.pcStep (h : Rescues cfg x pc) (hstep : PcStep cfg s i pc e pc')
    (hs : Placed cfg s) (hw : s.listed x w) (hw' : (s.apply i e).listed x w) :
    Rescues cfg x pc' := by
  cases h with
  | close f kind hf =>
    cases hstep with
    | recv _ _ _ _ _ _ tries | send _ _ _ _ _ tries => cases tries
    | close _ _ _ _ step =>
      cases step with
      | drained queue =>
        rcases hw with hw | hw
        · rw [queue] at hw; cases hw
        · rw [hs.cell x kind] at hw; cases hw
      | store => exact absurd rfl hf
      | _ => exact .close _ kind nofun
  | arrives _ kind goes =>
    have hqueue : (s.reg x).queue = [] := hs.queue x (by rw [kind]; exact nofun)
    have hcell : s.cell x = some w := by
      rcases hw with hw | hw
      · rw [hqueue] at hw; cases hw
      · exact hw
    rcases goes.fireStep hstep kind hcell with ⟨-, hgoes⟩ | rfl
    · exact .arrives _ kind hgoes
    · rcases hw' with hw' | hw'
      · have hnil : w ∈ (s.reg x).queue := hw'
        rw [hqueue] at hnil
        cases hnil
      · simp [St.apply] at hw'

/-- A step of a call. -/
theorem Rescued.go (hr : Rescued cfg s) (h : Held s) (hs : Placed cfg s)
    (hstep : PcStep cfg s i (s.pc i) e pc') : Rescued cfg ((s.apply i e).setPc i pc') := by
  have h' : Held ((s.apply i e).setPc i pc') := h.go hstep
  intro x hkind hgone j w hj hlisted
  rw [setPc_cnt, apply_cnt] at hgone
  have hm : Move cfg s (s.pc i) e pc' := move_of_pcStep hstep (h.fits i)
  have hstays {j : ι} (hold : (s.pc j).sleeps = some w) :
      ∃ k, Rescues cfg x (((s.apply i e).setPc i pc').pc k) := by
    have hbefore := hm.listed_of_own h (Pc.own_of_sleeps hold) hlisted
    obtain ⟨k, hk⟩ := hr x hkind hgone j w hold hbefore
    by_cases hki : k = i
    · subst hki
      exact ⟨k, by rw [setPc_pc_self]; exact hk.pcStep hstep hs hbefore hlisted⟩
    · exact ⟨k, by rwa [setPc_pc_of_ne hki, apply_pc]⟩
  by_cases hji : j = i
  · subst hji
    have hside := (h'.mine j w (Pc.own_mem_mine (Pc.own_of_sleeps hj))).2.2
    rw [(h'.listed x w hlisted).2, setPc_handle, apply_handle] at hside
    rw [setPc_pc_self] at hj
    rcases sleeps_of_pcStep hstep (h.fits j) hj with hold | ⟨y, hy, hhere⟩ | ⟨hown, hwoken⟩
    · exact hstays hold
    · -- the agent has just seen a handle of the other side
      obtain rfl : x = y := Option.some.inj (hside.symm.trans (h.side j y hy))
      exact absurd hgone hhere
    · have hbefore := hm.listed_of_own h hown hlisted
      rw [(hs.own j w hown).mpr (.inl ⟨x, hbefore⟩)] at hwoken
      cases hwoken
  · rw [setPc_pc_of_ne hji, apply_pc] at hj
    exact hstays hj

/-! ## The starts and ends of calls -/

omit [Fintype ι] in
/-- An agent that goes on without a waker to wait for. -/
theorem Rescued.setPc (hr : Rescued cfg s) (hquiet : (s.pc i).isQuiet = true)
    (hsleeps : pc'.sleeps = none) : Rescued cfg (s.setPc i pc') := by
  intro x hkind hgone j w hj hlisted
  rw [setPc_pc] at hj
  split_ifs at hj with hji
  · subst hji
    rw [hsleeps] at hj
    cases hj
  · obtain ⟨k, hk⟩ := hr x hkind hgone j w hj hlisted
    have hki : k ≠ i := by
      rintro rfl
      rw [hk.not_quiet] at hquiet
      cases hquiet
    exact ⟨k, by rwa [setPc_pc_of_ne hki]⟩

omit [DecidableEq ι] [Fintype ι] in
/-- What the invariant does not look at. -/
theorem Rescued.congr (hr : Rescued cfg s) (hpc : t.pc = s.pc)
    (hqueue : ∀ x, (t.reg x).queue = (s.reg x).queue) (hcell : t.cell = s.cell)
    (hcnt : ∀ x, t.cnt x = 0 → s.cnt x = 0) : Rescued cfg t := by
  intro x hkind hgone j w hj hlisted
  rw [hpc] at hj ⊢
  refine hr x hkind (hcnt _ hgone) j w hj ?_
  unfold St.listed at hlisted ⊢
  rwa [hqueue, hcell] at hlisted

omit [DecidableEq ι] [Fintype ι] in
theorem Rescued.countMsg (hr : Rescued cfg s) (c : Call) : Rescued cfg (s.countMsg c) := by
  unfold St.countMsg
  split_ifs
  · exact hr.congr rfl (fun _ => rfl) rfl fun _ => id
  · exact hr

omit [Fintype ι] in
/-- The last handle of side `y` goes, and its agent turns to the waiters of the other side. -/
theorem Rescued.dropLast {y : Side} (hr : Rescued cfg s) (hidle : s.pc i = .idle)
    (hgoes : Closes cfg y.other pc') : Rescued cfg ((s.dropHandle y i).setPc i pc') := by
  intro x hkind hgone j w hj hlisted
  by_cases hx : x = y.other
  · subst hx
    exact ⟨i, by rw [setPc_pc_self]; exact hgoes.rescues hkind⟩
  · -- the other side had gone before
    have hother : x.other ≠ y := by
      rintro rfl
      exact hx (by cases x <;> rfl)
    have hbefore : s.cnt x.other = 0 := by
      simpa [St.dropHandle, update_of_ne hother] using hgone
    have hji : j ≠ i := by
      rintro rfl
      rw [setPc_pc_self] at hj
      cases hgoes <;> cases hj
    rw [setPc_pc_of_ne hji] at hj
    obtain ⟨k, hk⟩ := hr x hkind hbefore j w hj hlisted
    have hki : k ≠ i := by
      rintro rfl
      have hquiet := hk.not_quiet
      rw [hidle] at hquiet
      cases hquiet
    exact ⟨k, by rw [setPc_pc_of_ne hki]; exact hk⟩

theorem startPc_sleeps (c : Call) : (startPc c).sleeps = none := by
  fun_cases startPc c <;> rfl

omit [Fintype ι] in
/-- The start of a call. -/
theorem Rescued.call {a : Act ι} (hr : Rescued cfg s) (hstep : CallStep cfg s a t) :
    Rescued cfg t := by
  have hcount (c : Call) : (s.countMsg c).pc = s.pc := by unfold St.countMsg; split_ifs <;> rfl
  have hkept {i : ι} {c : Call} {w : Nat} (hpc : s.pc i = .pending c w ∨ s.pc i = .kept c w) :
      (s.pc i).isQuiet = true := by
    rcases hpc with hpc | hpc <;> rw [hpc] <;> rfl
  cases hstep with
  | call i c pc handle msg =>
    refine (hr.countMsg c).setPc ?_ (startPc_sleeps c)
    rw [hcount, pc]
    rfl
  | poll i c c' w _ pc next =>
    refine (hr.countMsg c').setPc ?_ ?_
    · rw [hcount]
      exact hkept pc
    · cases next <;> rfl
  | dropFuture i c w pc kind | dropSingle i c w pc kind => exact hr.setPc (hkept pc) rfl
  | dropHandle i x pc handle shared =>
    refine hr.congr rfl (fun _ => rfl) rfl fun y hy => ?_
    by_cases hyx : y = x
    · subst hyx
      simp only [St.dropHandle, update_self] at hy
      omega
    · simpa [St.dropHandle, update_of_ne hyx] using hy
  | dropLast i x _ pc handle alone goes => exact hr.dropLast pc goes
  | clone i j x source slot kind =>
    refine hr.congr rfl (fun _ => rfl) rfl fun y hy => ?_
    by_cases hyx : y = x
    · subst hyx
      simp [St.addHandle] at hy
    · simpa [St.addHandle, update_of_ne hyx] using hy
  | readTaken i m _ pc goes =>
    refine hr.setPc (by rw [pc]; rfl) ?_
    rw [goes.sleeps]
    rfl
  | readToken _ pc | dropToken _ _ pc => exact hr.setPc (by rw [pc]; rfl) rfl
  | regSelect | cancelSelect => exact hr.congr rfl (setReg_queue rfl) rfl fun _ => id

/-- **Every waiter is rescued, in every run.** -/
theorem rescued_of_reach (h : Reach (system cfg) clearOk s) : Rescued cfg s := by
  suffices hall : Held s ∧ Placed cfg s ∧ Rescued cfg s from hall.2.2
  refine h.invariant (P := fun s => Held s ∧ Placed cfg s ∧ Rescued cfg s) ?_ ?_
  · rintro _ ⟨a, b, hab, rfl⟩
    exact ⟨held_new hab, placed_new a b, nofun⟩
  · rintro s a t ⟨hheld, hplaced, hrescued⟩ hok hstep
    refine ⟨hheld.step hstep, hplaced.step hheld hok hstep, ?_⟩
    rcases step_cases hstep with ⟨i, choice, e, pc', rfl, hpc, rfl⟩ | hcall
    · exact hrescued.go hheld hplaced hpc
    · exact hrescued.call hcall

/-- When the last handle of one side is gone and nobody is in the middle of an operation, in the
runs in which `_clear_wakers` finds its own waker: an agent of the other side that is parked or
whose last poll returned `Pending` has had its waker called since it last registered it. -/
theorem close_wakes_waiters (h : Reach (system cfg) clearOk s) (hkind : cfg.kind x ≠ .dummy)
    (hgone : s.cnt x.other = 0) (hquiet : ∀ j, (s.pc j).isQuiet = true) :
    ∀ i c w, (s.pc i = .park c w ∨ s.pc i = .pending c w) → c.side = x →
      (s.waker w).issued = true := by
  intro i c w hpc hside
  have hheld := held_of_reach h
  have hplaced := placed_of_reach h
  have hsleeps : (s.pc i).sleeps = some w := by rcases hpc with hpc | hpc <;> rw [hpc] <;> rfl
  have hcall : (s.pc i).side = some x := by
    rcases hpc with hpc | hpc <;> rw [hpc, ← hside] <;> rfl
  have hown := Pc.own_of_sleeps hsleeps
  have hwoken : (s.waker w).state.isWoken = true := by
    by_contra hwaits
    rcases (hplaced.own i w hown).mp (Bool.eq_false_of_not_eq_true hwaits) with
      ⟨y, hlisted⟩ | ⟨j, y, hpops⟩
    · have hy : y = x := (hheld.listed y w hlisted).2.symm.trans
        (hheld.side_of_mine (Pc.own_mem_mine hown) hcall)
      subst hy
      obtain ⟨j, hj⟩ := rescued_of_reach h y hkind hgone i w hsleeps hlisted
      have hbusy := hj.not_quiet
      rw [hquiet j] at hbusy
      cases hbusy
    · rw [Pc.pops_of_isQuiet (hquiet j)] at hpops
      cases hpops
  rcases hplaced.rung i w hown hwoken with hissued | ⟨j, hj⟩
  · exact hissued
  · rw [Pc.rings_of_isQuiet (hquiet j)] at hj
    cases hj

end Invariant

/-- One receiver is parked and another one has a pending future when the only sender is dropped. -/
theorem close_wakes_waiters_two :
    ∃ s : St (Fin 3), Reach (system unboundedMpmc) clearOk s ∧ s.cnt .tx = 0 ∧
      s.pc 1 = .park (.recv false) 0 ∧ s.pc 2 = .pending (.pollItem false 7) 1 ∧
      (s.waker 0).issued = true ∧ (s.waker 1).issued = true := by
  have hnew : Reach (system unboundedMpmc) clearOk (St.new (0 : Fin 3) 1) :=
    .init ⟨0, 1, by decide, rfl⟩
  obtain ⟨s, hs, hgone, hquiet, hpark, hpending⟩ := hnew.exists_of_run
    [.clone 1 2, .call 1 (.recv false), .go 1 false, .go 1 true, .go 1 false, .go 1 false,
      .go 1 false, .go 1 false, .call 2 (.pollItem false 7), .go 2 true, .go 2 false, .go 2 false,
      .go 2 false, .go 2 false, .go 2 false, .dropHandle 0, .go 0 false, .go 0 false, .go 0 false,
      .go 0 false, .go 0 false, .go 0 false, .go 0 false, .go 0 false, .go 0 false]
    (fun s => s.cnt .tx = 0 ∧ (∀ j, (s.pc j).isQuiet = true) ∧
      s.pc 1 = .park (.recv false) 0 ∧ s.pc 2 = .pending (.pollItem false 7) 1)
    (by decide +kernel)
  have hissued := close_wakes_waiters (x := .rx) hs nofun hgone hquiet
  exact ⟨s, hs, hgone, hpark, hpending, hissued 1 _ _ (.inl hpark) rfl,
    hissued 2 _ _ (.inr hpending) rfl⟩

/-! ## A waiter that is not found -/

/-- The sender that is late with its wake finishes, and so does receiver `2`. -/
theorem exists_finished {t : St (Fin 3)} (ht : Reachable (system unboundedMpmc) t)
    (hsender : t.pc 0 = .fire .rx (.wake 0 .load .stop) (.retn (.send 0 false) none (.ok 0)))
    (hleaver : t.pc 2 = .retn (.recv true) (some 0) .timeout)
    (habandoned : (t.waker 0).state = .closed) :
    ∃ u, Reachable (system unboundedMpmc) u ∧ u.pc 0 = .idle ∧ u.pc 1 = t.pc 1 ∧ u.pc 2 = .idle ∧
      u.waker = t.waker ∧ u.reg = t.reg ∧ u.locked = t.locked ∧ u.handle = t.handle ∧
      u.cnt = t.cnt := by
  rw [← setPc_self hleaver] at ht
  have hidle : Reachable (system unboundedMpmc)
      ((t.apply 2 (.ret (.recv true) .timeout)).setPc 2 .idle) := reach_go false ht trivial rfl
  obtain ⟨a, ha⟩ : ∃ a, a = (t.apply 2 (.ret (.recv true) .timeout)).setPc 2 .idle := ⟨_, rfl⟩
  have hazero : a.pc 0 = .fire .rx (.wake 0 .load .stop) (.retn (.send 0 false) none (.ok 0)) := by
    rw [ha, setPc_pc_of_ne (by decide), apply_pc, hsender]
  have hwaker : a.waker = t.waker := by rw [ha]; rfl
  rw [← ha, ← setPc_self hazero] at hidle
  have hskip : stepPc unboundedMpmc (a.setPc 0 (.fire .rx (.wake 0 .load .stop)
      (.retn (.send 0 false) none (.ok 0)))) 0 false
      (.fire .rx (.wake 0 .load .stop) (.retn (.send 0 false) none (.ok 0))) =
        some (.setState 0 .closed, .retn (.send 0 false) none (.ok 0)) := by
    simp only [stepPc, stepFire, setPc_waker, hwaker, habandoned]
    rfl
  have hretn := reach_go false hidle trivial hskip
  have hdone : Reachable (system unboundedMpmc) (((a.apply 0 (.setState 0 .closed)).apply 0
      (.ret (.send 0 false) (.ok 0))).setPc 0 .idle) := reach_go false hretn trivial rfl
  refine ⟨_, hdone, setPc_pc_self .., ?_, ?_, ?_, ?_, ?_, ?_, ?_⟩
  · rw [setPc_pc_of_ne (by decide), apply_pc, apply_pc, ha,
      setPc_pc_of_ne (by decide), apply_pc]
  · rw [setPc_pc_of_ne (by decide), apply_pc, apply_pc, ha, setPc_pc_self]
  · -- the state that is stored is the one that was read
    show update a.waker 0 { a.waker 0 with state := .closed } = t.waker
    rw [hwaker, ← habandoned]
    exact update_eq_self 0 t.waker
  all_goals
    rw [ha]
    rfl

/-- The last sender is dropped while nothing is queued. -/
theorem exists_closed {t : St (Fin 3)} (ht : Reachable (system unboundedMpmc) t)
    (hidle : t.pc 0 = .idle) (hhandle : t.handle 0 = some .tx) (hcnt : t.cnt .tx = 1)
    (hunlocked : t.locked .rx = false) (hqueue : (t.reg .rx).queue = []) :
    ∃ u, Reachable (system unboundedMpmc) u ∧ u.cnt .tx = 0 ∧
      u.pc = update t.pc 0 .idle ∧ u.waker = t.waker := by
  have hclose : Reachable (system unboundedMpmc)
      ((t.dropHandle .tx 0).setPc 0 (.close .rx .lock)) := by
    refine ht.step (.dropHandle 0) trivial ?_
    show step unboundedMpmc t (.dropHandle 0) = _
    simp only [step, hidle, hhandle, closeHandle, hcnt]
    rfl
  have hlock : stepPc unboundedMpmc ((t.dropHandle .tx 0).setPc 0 (.close .rx .lock)) 0 false
      (.close .rx .lock) = some (.lock .rx, .close .rx .pop) := by
    show (if t.locked .rx then none else some (Eff.lock .rx, Pc.close .rx .pop)) = _
    rw [hunlocked]
    rfl
  have hpop := reach_go false hclose trivial hlock
  have hdrained : stepPc unboundedMpmc (((t.dropHandle .tx 0).apply 0 (.lock .rx)).setPc 0
      (.close .rx .pop)) 0 false (.close .rx .pop) = some (.skip, .close .rx .store) := by
    have hnil : ((((t.dropHandle .tx 0).apply 0 (.lock .rx)).setPc 0
      (.close .rx .pop)).reg .rx).queue = [] := hqueue
    simp only [stepPc, stepClose, hnil]
  have hstore := reach_skip false hpop trivial hdrained
  have hdone : Reachable (system unboundedMpmc) ((((t.dropHandle .tx 0).apply 0 (.lock .rx)).apply 0
      (.unlock .rx)).setPc 0 .idle) := reach_go false hstore trivial rfl
  refine ⟨_, hdone, ?_, ?_, rfl⟩
  · rw [setPc_cnt, apply_cnt, apply_cnt]
    simp [St.dropHandle, hcnt]
  · rfl

/-- Waker `0` of receiver `2` was popped by a sender that is late with its wake, and receiver `1`
waits with the same 32-bit number. Receiver `2` gives up and takes receiver `1` out of the queue.
The sender finishes and is dropped, and `close` does not find receiver `1`. -/
theorem close_leaves_waiter :
    ∃ (s : St (Fin 3)) (w : Nat), Reachable (system unboundedMpmc) s ∧ s.cnt .tx = 0 ∧
      (∀ j, (s.pc j).isQuiet = true) ∧ s.pc 1 = .park (.recv false) w ∧
      (s.waker w).issued = false := by
  obtain ⟨s, v, hs, -, h⟩ := exists_confused false
  obtain ⟨r, hstep, hrqueue⟩ := h.step
  have hs' : Reachable (system unboundedMpmc) s := hs.mono fun _ _ _ => trivial
  have hnext : (system unboundedMpmc).step s (.go 2 false) = _ := hstep
  have ht := hs'.step (.go 2 false) trivial hnext
  obtain ⟨u, hu, hzero, hone, htwo, hwaker, hreg, hlocked, hhandle, hcnt⟩ := exists_finished ht
    ((setPc_pc_of_ne (by decide)).trans h.sender) (setPc_pc_self ..) h.abandoned
  have hqueue : (u.reg .rx).queue = [] := by
    rw [hreg, setPc_reg, registry_queue, if_pos rfl, hrqueue]
  obtain ⟨z, hz, hgone, hpc, hzwaker⟩ := exists_closed hu hzero (hhandle ▸ h.handle)
    (hcnt ▸ h.cnt) (hlocked ▸ h.unlocked) hqueue
  have hpark : z.pc 1 = .park (.recv false) v := by
    rw [hpc, update_of_ne (by decide), hone, setPc_pc_of_ne (by decide)]
    exact h.waiter
  refine ⟨z, v, hz, hgone, fun j => ?_, hpark, ?_⟩
  · match j with
    | 0 => rw [hpc, update_self]; rfl
    | 1 => rw [hpark]; rfl
    | 2 => rw [hpc, update_of_ne (by decide), htwo]; rfl
  · rw [hzwaker, hwaker]
    exact h.notCalled

end Crossfire.Channel
