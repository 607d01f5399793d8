import Crossfire.Channel.Placed

/-!
# A woken thread has its park token

A thread in a blocking call that has registered its waker and not looked at it since the last
`park` is going to park (`Pc.naps`). If its waker is woken by then, `park` returns: the token of the
thread is there, or somebody is about to `unpark` it. This is the invariant `Roused`; like `Placed`,
which it rests on, it holds in the runs in which `_clear_wakers` removes what it looks for.
-/

set_option autoImplicit false

namespace Crossfire.Channel

open Lib.Interleaving Crossfire.Waker Crossfire.Registry Function

/-- The registered waker of a blocking call whose thread has not returned from `park` since it last
looked at the waker. -/
def Pc.naps : Pc → Option Nat
  | .double c w | .commit c w | .closed c w _ | .congest c w | .snooze c w | .deadline c w
  | .park c w => if c.isBlocking then some w else none
  | _ => none

theorem Pc.own_of_naps {pc : Pc} {w : Nat} (h : pc.naps = some w) : pc.own = some w := by
  cases pc with
  | double | commit | congest | snooze | deadline | park | closed =>
    simp only [Pc.naps, Option.ite_none_right_eq_some] at h
    exact h.2
  | _ => cases h

theorem Pc.call_of_naps {pc : Pc} {w : Nat} (h : pc.naps = some w) :
    ∃ c, pc.call = some c ∧ c.isBlocking = true := by
  cases pc with
  | double c | commit c | congest c | snooze c | deadline c | park c | closed c =>
    simp only [Pc.naps, Option.ite_none_right_eq_some] at h
    exact ⟨c, rfl, h.1⟩
  | _ => cases h

theorem thin_of_isBlocking {c : Call} (h : c.isBlocking = true) : c.thin = .blocking := by
  cases c <;> first | rfl | cases h

theorem Cont.naps_pc (k : Cont) : k.pc.naps = none := by cases k <;> rfl

section Calls

variable {ι : Type} [Fintype ι] {cfg : Cfg} {s : St ι} {i : ι} {e : Eff} {pc pc' : Pc} {x : Side}
  {c : Call} {k : Cont} {w : Nat}

/-- An agent stays in its call; a token of `try_select` belongs to `read_select`. -/
theorem call_of_pcStep (h : PcStep cfg s i pc e pc') (hc : pc'.call = some c) :
    pc.call = some c ∨ c = .trySelect false ∧ ∃ final, pc.call = some (.trySelect final) := by
  cases h with
  | recv _ _ _ _ _ _ tries _ _ goes | send _ _ _ _ _ tries _ _ _ goes =>
    exact .inl ((tries.call.trans (goes.call.trans tries.call_cont).symm).trans hc)
  | closedSettle _ _ _ _ _ _ goes | congestNot _ _ _ goes | snoozeWoken _ _ _ _ goes
  | snoozeDone _ _ _ goes | state _ _ _ goes | abandonFire _ _ _ _ _ goes =>
    exact .inl (goes.call.symm.trans hc)
  | reuseWoken | reuse =>
    rw [Cont.call_pc, reused_call] at hc
    exact .inl hc
  | reuseClear c w target => exact .inl ((reused_call c none target).symm.trans hc)
  | clearSkip | clearLock | abandonErr =>
    rw [Cont.call_pc] at hc
    exact .inl hc
  | fire x f k _ _ step => exact .inl ((fireStep_call step).symm.trans hc)
  | selectClaim final | selectPeek final =>
    cases hc
    exact .inr ⟨rfl, final, rfl⟩
  | close x f _ _ step => cases step <;> cases hc
  | _ => first | exact .inl hc | cases hc

theorem Fires.naps (h : Fires cfg x k pc') : pc'.naps = none := by
  cases h with
  | dummy => exact k.naps_pc
  | fire => rfl

theorem Wakes.naps {rest : Rest} {result : WakeResult} (h : Wakes x w k rest result pc') :
    pc'.naps = none := by
  cases h with
  | leave => exact k.naps_pc
  | _ => rfl

theorem fireStep_naps {f : FirePc} (h : FireStep cfg s x k f e pc') : pc'.naps = none := by
  cases h with
  | skip _ _ _ _ _ _ goes | wakeByRef _ _ _ _ goes => exact goes.naps
  | _ => first | rfl | exact k.naps_pc

theorem Sleeps.naps (h : Sleeps c w pc') {v : Nat} (hv : pc'.naps = some v) : v = w := by
  have hown := Pc.own_of_naps hv
  cases h <;> exact (Option.some.inj hown).symm

theorem Settles.naps {state : WakerState} (h : Settles c w state pc') {v : Nat}
    (hv : pc'.naps = some v) : v = w ∧ state.isWoken = false := by
  cases h with
  | sleep _ notWoken goes => exact ⟨goes.naps hv, notWoken⟩
  | _ => cases hv

/-- A thread that is going to park was so before, has just read its waker, or has just
registered. -/
theorem naps_of_pcStep (h : PcStep cfg s i pc e pc') (hfits : pc.Fits) (hw : pc'.naps = some w) :
    (pc.naps = some w ∧ e ≠ .park) ∨
      (e = .skip ∧ ∃ c, pc = .state c w ∧ (waiterState cfg s c.side w).isWoken = false) ∨
        pc.own ≠ some w := by
  obtain ⟨c', hcall', hblocking'⟩ := Pc.call_of_naps hw
  have hblocking {c : Call} (hcall : pc'.call = some c) : c.isBlocking = true := by
    rw [hcall', Option.some.injEq] at hcall
    exact hcall ▸ hblocking'
  cases h with
  | recv _ _ _ _ _ _ _ _ _ goes | send _ _ _ _ _ _ _ _ _ goes | abandonFire _ _ _ _ _ goes =>
    rw [goes.naps] at hw; cases hw
  | doubleCommit | doubleSkip | commit | congest | snooze | deadline =>
    obtain rfl := Option.some.inj (Pc.own_of_naps hw)
    exact .inl ⟨if_pos (hblocking rfl), nofun⟩
  | recasClosed c v | recasSame c v =>
    have := hblocking rfl
    rw [hfits.2] at this
    cases this
  | closedSettle _ _ _ _ _ _ goes | snoozeWoken _ _ _ _ goes =>
    obtain ⟨rfl, _⟩ := goes.naps hw
    exact .inl ⟨if_pos (hblocking goes.call), nofun⟩
  | congestNot _ _ _ goes | snoozeDone _ _ _ goes =>
    obtain rfl := goes.naps hw
    exact .inl ⟨if_pos (hblocking goes.call), nofun⟩
  | state c v _ goes =>
    obtain ⟨rfl, hnot⟩ := goes.naps hw
    exact .inr (.inl ⟨rfl, c, rfl, hnot⟩)
  | reg | regNew | swap => exact .inr (.inr nofun)
  | clearSkip | clearLock | abandonErr | reuseWoken | reuse => rw [Cont.naps_pc] at hw; cases hw
  | fire x f k _ _ step => rw [fireStep_naps step] at hw; cases hw
  | close x f _ _ step => cases step <;> cases hw
  | _ => cases hw

end Calls

/-! ## The invariant -/

section Invariant

variable {ι : Type} [DecidableEq ι] [Fintype ι]

/-- A waker that was rung has left its token. -/
structure Roused (cfg : Cfg) (s : St ι) : Prop where
  /-- The waker of a blocking call wakes the thread. -/
  blocking : ∀ i c w, (s.pc i).call = some c → c.isBlocking = true → w ∈ (s.pc i).mine →
    (s.waker w).waker = .blocking
  /-- The cell of a side with one handle has the last registered waker or none. -/
  cell : ∀ i w, (s.pc i).own = some w → cfg.kind (s.waker w).side ≠ .multi →
    s.cell (s.waker w).side = none ∨ s.cell (s.waker w).side = some w
  rung : ∀ i w, (s.pc i).naps = some w → (s.waker w).state.isWoken = true →
    s.token i = true ∨ ∃ j, (s.pc j).rings = some w

variable {cfg : Cfg} {s t : St ι} {i : ι} {e : Eff} {pc' : Pc} {w : Nat}

omit [Fintype ι] in
/-- Only its own `park` takes the token of a thread. -/
theorem token_apply {j : ι} (h : s.token j = true) (hpark : e = .park → j ≠ i) :
    (s.apply i e).token j = true := by
  cases e with
  | park =>
    simp only [St.apply]
    rwa [update_of_ne (hpark rfl)]
  | wakeByRef v =>
    simp only [St.apply, St.wakeByRef]
    split
    · dsimp only
      by_cases hj : j = (s.waker v).owner
      · rw [hj, update_self]
      · rwa [update_of_ne hj]
    · exact h
  | _ => exact h

omit [Fintype ι] in
theorem token_wakeByRef (h : (s.waker w).waker = .blocking) :
    (s.apply i (.wakeByRef w)).token (s.waker w).owner = true := by
  simp only [St.apply, St.wakeByRef, h, update_self]

omit [DecidableEq ι] in
theorem Held.side_of_mine (h : Held s) {x : Side} (hw : w ∈ (s.pc i).mine)
    (hside : (s.pc i).side = some x) : (s.waker w).side = x :=
  Option.some.inj ((h.mine i w hw).2.2.symm.trans (h.side i x hside))

section Step

variable (hr : Roused cfg s) (hs : Placed cfg s) (h : Held s)
  (hstep : PcStep cfg s i (s.pc i) e pc')

include hr h hstep

omit hs in
/-- A blocking call has a thread as its waker. -/
theorem Roused.blocking_go {j : ι} {c : Call}
    (hc : (((s.apply i e).setPc i pc').pc j).call = some c) (hblocking : c.isBlocking = true)
    (hw : w ∈ (((s.apply i e).setPc i pc').pc j).mine) :
    ((s.apply i e).waker w).waker = .blocking := by
  have hm : Move cfg s (s.pc i) e pc' := move_of_pcStep hstep (h.fits i)
  have hold {c : Call} (hc : (s.pc j).call = some c) (hblocking : c.isBlocking = true)
      (hw : w ∈ (s.pc j).mine) : ((s.apply i e).waker w).waker = .blocking := by
    rw [apply_fixed s i e WakerInner.waker (fun _ _ _ _ => rfl) (h.mine j w hw).1]
    exact hr.blocking j c w hc hblocking hw
  rw [go_pc] at hc hw
  split_ifs at hc hw with hji
  · subst hji
    have hc' : (s.pc j).call = some c := by
      rcases call_of_pcStep hstep hc with hc' | ⟨rfl, -⟩
      · exact hc'
      · cases hblocking
    rcases hm.flows with hflows | ⟨c', o, fresh, v, hpc, rfl, hreg⟩
    · exact hold hc' hblocking (hflows.mine hw)
    · obtain rfl : c' = c := Option.some.inj hc
      obtain rfl := List.mem_singleton.mp hw
      rcases hreg with ⟨rfl, _⟩ | ⟨rfl, ⟨rfl, _⟩ | ⟨rfl, _⟩⟩
      · exact hold hc' hblocking (by rw [hpc]; exact List.mem_singleton_self _)
      · simp [St.apply, St.register, St.setWaker, newWaker, thin_of_isBlocking hblocking]
      · simp [St.apply, St.setWaker, newWaker, thin_of_isBlocking hblocking]
  · exact hold hc hblocking hw

omit hstep in
/-- The cell keeps the last registered waker until it is popped. -/
theorem Roused.cell_go (hs : Placed cfg s) (hm : Move cfg s (s.pc i) e pc') {j : ι}
    (hj : (((s.apply i e).setPc i pc').pc j).own = some w)
    (hkind : cfg.kind ((s.apply i e).waker w).side ≠ .multi) :
    (s.apply i e).cell ((s.apply i e).waker w).side = none ∨
      (s.apply i e).cell ((s.apply i e).waker w).side = some w := by
  -- the waker was there before, or agent `i` registers it now
  have hold (hj : (s.pc j).own = some w) :
      (s.apply i e).cell ((s.apply i e).waker w).side = none ∨
        (s.apply i e).cell ((s.apply i e).waker w).side = some w ∨ pc'.own = some s.nextWaker ∧
          j = i := by
    obtain ⟨hlt, _, hhandle⟩ := h.mine j w (Pc.own_mem_mine hj)
    have hside := (apply_owner_side s i e hlt).2
    rw [hside] at hkind ⊢
    rcases hm.cell (i := i) (s.waker w).side with hsame | hnone | ⟨hsingle, -, hpc, hown⟩
    · rw [hsame]
      exact (hr.cell j w hj hkind).imp_right .inl
    · exact .inl hnone
    · exact .inr (.inr ⟨hown, h.handle_unique (hs.alone _ hsingle) hhandle (h.side i _ hpc)⟩)
  rw [go_pc] at hj
  split_ifs at hj with hji
  · subst hji
    rcases hm.flows with hflows | ⟨c, o, fresh, v, hpc, rfl, hreg⟩
    · rcases hflows.own with hnone | hsame
      · rw [hnone] at hj; cases hj
      · have hj' := hsame ▸ hj
        rcases hold hj' with hnone | hsome | ⟨hnew, -⟩
        · exact .inl hnone
        · exact .inr hsome
        · rw [hj] at hnew
          cases hnew
          exact absurd (h.mine j _ (Pc.own_mem_mine hj')).1 (Nat.lt_irrefl _)
    · cases hj
      rcases hreg with ⟨rfl, _, rfl, hmulti⟩ | ⟨rfl, ⟨rfl, hmulti⟩ | ⟨rfl, _⟩⟩
      · have hmine : w ∈ (s.pc j).mine := by rw [hpc]; exact List.mem_singleton_self _
        have hside := h.side_of_mine hmine (show (s.pc j).side = some c.side by rw [hpc]; rfl)
        rw [(apply_owner_side s j _ (h.mine j w hmine).1).2, hside] at hkind
        exact absurd hmulti hkind
      · refine absurd hmulti ?_
        simpa [St.apply, St.register, St.setWaker, newWaker] using hkind
      · exact .inr (by simp [St.apply, St.setWaker, newWaker])
  · rcases hold hj with hnone | hsome | ⟨-, heq⟩
    · exact .inl hnone
    · exact .inr hsome
    · exact absurd heq hji

/-- A woken thread has its token, or somebody is about to give it. -/
theorem Roused.rung_go (hs : Placed cfg s) {j : ι}
    (hj : (((s.apply i e).setPc i pc').pc j).naps = some w)
    (hwoken : ((s.apply i e).waker w).state.isWoken = true) :
    (s.apply i e).token j = true ∨ ∃ k, (((s.apply i e).setPc i pc').pc k).rings = some w := by
  have hm : Move cfg s (s.pc i) e pc' := move_of_pcStep hstep (h.fits i)
  have hself (hr : pc'.rings = some w) : ∃ k, (((s.apply i e).setPc i pc').pc k).rings = some w :=
    ⟨i, by rwa [setPc_pc_self]⟩
  -- the thread was going to park before, and does not park now
  have hold (hnaps : (s.pc j).naps = some w) (hown : j = i → pc'.own = some w)
      (hpark : e = .park → j ≠ i) : (s.apply i e).token j = true ∨
        ∃ k, (((s.apply i e).setPc i pc').pc k).rings = some w := by
    have hmine : w ∈ (s.pc j).mine := Pc.own_mem_mine (Pc.own_of_naps hnaps)
    have hturns := hm.turns (i := i) w
    generalize ((s.apply i e).waker w).state = state at hturns hwoken
    cases hturns with
    | same =>
      rcases hr.rung j w hnaps hwoken with htoken | ⟨k, hk⟩
      · exact .inl (token_apply htoken hpark)
      · by_cases hki : k = i
        · subst hki
          rcases hm.rings_or_calls hk with hrings | rfl
          · exact .inr (hself hrings)
          · obtain ⟨c, hcall, hblocking⟩ := Pc.call_of_naps hnaps
            have htoken := token_wakeByRef (i := k) (hr.blocking j c w hcall hblocking hmine)
            rw [(h.mine j w hmine).2.1] at htoken
            exact .inl htoken
        · exact .inr ⟨k, by rwa [setPc_pc_of_ne hki, apply_pc]⟩
    | woken _ _ _ rings' | closed _ _ _ _ rings' => exact .inr (hself rings')
    | reset | commit | new => cases hwoken
    | abandon mine own' ready' =>
      have hkeep := hown (h.owner_unique hmine mine)
      rw [own'] at hkeep
      cases hkeep
  rw [go_pc] at hj
  split_ifs at hj with hji
  · subst hji
    rcases naps_of_pcStep hstep (h.fits j) hj with ⟨hnaps, hpark⟩ | ⟨rfl, c, hpc, hnot⟩ | hnew
    · exact hold hnaps (fun _ => Pc.own_of_naps hj) (absurd · hpark)
    · -- the thread has read its waker, and it was not woken
      have hown : (s.pc j).own = some w := by rw [hpc]; rfl
      have hwaits : (s.waker w).state.isWoken = false := by
        by_cases hkind : cfg.kind c.side = .multi
        · simpa [waiterState, hkind] using hnot
        · have hside := h.side_of_mine (Pc.own_mem_mine hown)
            (show (s.pc j).side = some c.side by rw [hpc]; rfl)
          have hcell := hr.cell j w hown (by rwa [hside])
          rw [hside] at hcell
          rcases hcell with hnone | hsome
          · simp [waiterState, hkind, hnone, WakerState.isWoken] at hnot
          · exact (hs.own j w hown).mpr (.inl ⟨c.side, .inr hsome⟩)
      rw [show (s.apply j .skip).waker = s.waker from rfl, hwaits] at hwoken
      cases hwoken
    · have hwaits := (hs.own_of_register hm (Pc.own_of_naps hj) hnew).1
      rw [hwaits] at hwoken
      cases hwoken
  · exact hold hj (absurd · hji) fun _ => hji

end Step

/-- A step of a call. -/
theorem Roused.go (hr : Roused cfg s) (hs : Placed cfg s) (h : Held s)
    (hstep : PcStep cfg s i (s.pc i) e pc') : Roused cfg ((s.apply i e).setPc i pc') where
  blocking _ _ _ hc hblocking hw := hr.blocking_go h hstep hc hblocking hw
  cell _ _ hj hkind := hr.cell_go h hs (move_of_pcStep hstep (h.fits i)) hj hkind
  rung _ _ hj hwoken := hr.rung_go h hstep hs hj hwoken

/-! ## The starts and ends of calls -/

omit [Fintype ι] in
/-- An agent that goes on with no more than it had. -/
theorem Roused.setPc (hr : Roused cfg s) (hown : pc'.own = none ∨ pc'.own = (s.pc i).own)
    (hnaps : pc'.naps = none) (hrings : pc'.rings = (s.pc i).rings)
    (hmine : pc'.mine = [] ∨ ∀ c, pc'.call = some c → c.isBlocking = false) :
    Roused cfg (s.setPc i pc') where
  blocking j c w hc hblocking hw := by
    rw [setPc_pc] at hc hw
    split_ifs at hc hw with hji
    · subst hji
      rcases hmine with hnil | hasync
      · rw [hnil] at hw; cases hw
      · rw [hasync c hc] at hblocking; cases hblocking
    · exact hr.blocking j c w hc hblocking hw
  cell j w hj := by
    rw [setPc_pc] at hj
    split_ifs at hj with hji
    · subst hji
      rcases hown with hnone | hsame
      · rw [hnone] at hj; cases hj
      · exact hr.cell j w (hsame ▸ hj)
    · exact hr.cell j w hj
  rung j w hj hwoken := by
    have hrings (k : ι) : ((s.setPc i pc').pc k).rings = (s.pc k).rings := by
      by_cases hk : k = i
      · subst hk; rw [setPc_pc_self, hrings]
      · rw [setPc_pc_of_ne hk]
    simp only [hrings]
    rw [setPc_pc] at hj
    split_ifs at hj with hji
    · subst hji
      rw [hnaps] at hj
      cases hj
    · exact hr.rung j w hj hwoken

omit [DecidableEq ι] [Fintype ι] in
/-- What the invariant does not look at. -/
theorem Roused.congr (hr : Roused cfg s) (hpc : t.pc = s.pc) (hwaker : t.waker = s.waker)
    (hcell : t.cell = s.cell) (htoken : t.token = s.token) : Roused cfg t := by
  refine ⟨?_, ?_, ?_⟩
  · simp only [hpc, hwaker]; exact hr.blocking
  · simp only [hpc, hwaker, hcell]; exact hr.cell
  · simp only [hpc, hwaker, htoken]; exact hr.rung

omit [DecidableEq ι] [Fintype ι] in
theorem Roused.countMsg (hr : Roused cfg s) (c : Call) : Roused cfg (s.countMsg c) := by
  unfold St.countMsg
  split_ifs
  · exact hr.congr rfl rfl rfl rfl
  · exact hr

theorem startPc_naps (c : Call) : (startPc c).naps = none := by
  fun_cases startPc c <;> rfl

omit [Fintype ι] in
/-- The start of a call. -/
theorem Roused.call {a : Act ι} (hr : Roused cfg s) (h : ∀ i, (s.pc i).Fits)
    (hstep : CallStep cfg s a t) : Roused cfg t := by
  have hcount (c : Call) : (s.countMsg c).pc = s.pc := by unfold St.countMsg; split_ifs <;> rfl
  cases hstep with
  | call i c pc handle msg =>
    obtain ⟨hown, -, -, hrings, -⟩ := startPc_idle cfg c
    refine (hr.countMsg c).setPc (.inl hown) (startPc_naps c) ?_ (.inl (startPc_mine c))
    rw [hcount, pc, hrings]
    rfl
  | poll i c c' w _ pc next =>
    refine (hr.countMsg c').setPc (.inr ?_) ?_ ?_ (.inr ?_)
    · rw [hcount]
      cases next <;> rcases pc with pc | pc <;> rw [pc] <;> rfl
    · cases next <;> rfl
    · rw [hcount]
      cases next <;> rcases pc with pc | pc <;> rw [pc] <;> rfl
    · cases next <;> rintro _ ⟨⟩ <;> rfl
  | dropFuture i c w pc kind | dropSingle i c w pc kind =>
    have hasync : c.isBlocking = false := by
      have := h i
      rcases pc with pc | pc <;> rw [pc] at this <;> exact this.2
    refine hr.setPc (.inl rfl) rfl ?_ (.inr ?_)
    · rcases pc with pc | pc <;> rw [pc] <;> rfl
    · rintro _ ⟨⟩
      exact hasync
  | dropHandle | clone | regSelect | cancelSelect => exact hr.congr rfl rfl rfl rfl
  | dropLast i x _ pc handle alone goes =>
    have hpc : (s.dropHandle x i).pc i = .idle := pc
    have hr' : Roused cfg (s.dropHandle x i) := hr.congr rfl rfl rfl rfl
    cases goes with
    | multi kind | single kind => exact hr'.setPc (.inl rfl) rfl (by rw [hpc]; rfl) (.inl rfl)
    | dummy kind => exact hr'.setPc (.inl rfl) rfl (by rw [hpc]) (.inl rfl)
  | readTaken i m _ pc goes =>
    cases goes with
    | dummy kind | fire kind => exact hr.setPc (.inl rfl) rfl (by rw [pc]; rfl) (.inl rfl)
  | readToken _ pc | dropToken _ _ pc => exact hr.setPc (.inl rfl) rfl (by rw [pc]; rfl) (.inl rfl)

omit [Fintype ι] in
theorem roused_new (a b : ι) : Roused cfg (St.new a b) := ⟨nofun, nofun, nofun⟩

theorem Roused.step {a : Act ι} (hr : Roused cfg s) (hs : Placed cfg s) (h : Held s)
    (hstep : Channel.step cfg s a = some t) : Roused cfg t := by
  rcases step_cases hstep with ⟨i, choice, e, pc', rfl, hpc, rfl⟩ | hcall
  · exact hr.go hs h hpc
  · exact hr.call h.fits hcall

end Invariant

end Crossfire.Channel
