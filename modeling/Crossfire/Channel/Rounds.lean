import Crossfire.Channel.Numbers

/-!
# Receives that time out

A receive with a deadline that finds nothing registers a waker, waits, gives up and takes its waker
out of the queue again. It leaves the channel as it was but for the number it used up. After
`2 ^ 32` such rounds the 32-bit numbers come around (`rounds`).
-/

set_option autoImplicit false

namespace Crossfire.Channel

open Lib.Interleaving Crossfire.Waker Crossfire.Registry Function

/-- Fewer than `2 ^ 32` registrations stand between the oldest waker of a queue and the newest. -/
def Window {ι : Type} (s : St ι) : Prop :=
  ∀ x, ∀ v ∈ (s.reg x).queue, (s.reg x).seq < (s.waker v).seq + 2 ^ 32

section Agents

variable {ι : Type} [DecidableEq ι] {s : St ι} {i : ι} {e : Eff} {pc pc' : Pc}

theorem setPc_setPc : (s.setPc i pc).setPc i pc' = s.setPc i pc' := by
  simp [St.setPc]

theorem setPc_self (h : s.pc i = pc) : s.setPc i pc = s := by
  rw [← h]
  simp [St.setPc]

/-- An effect does not look at the program counters. -/
theorem setPc_apply : (s.setPc i pc).apply i e = (s.apply i e).setPc i pc := by
  cases e with
  | wakeByRef w =>
    simp only [St.apply, St.wakeByRef, setPc_waker]
    split <;> rfl
  | _ => rfl

variable [Fintype ι] {cfg : Cfg} {ok : St ι → Act ι → Prop}

/-- One more step of a call. -/
theorem reach_go (choice : Bool) (h : Reach (system cfg) ok (s.setPc i pc))
    (hok : ok (s.setPc i pc) (.go i choice))
    (hstep : stepPc cfg (s.setPc i pc) i choice pc = some (e, pc')) :
    Reach (system cfg) ok ((s.apply i e).setPc i pc') := by
  refine h.step (.go i choice) hok ?_
  show step cfg (s.setPc i pc) (.go i choice) = _
  simp only [step, setPc_pc_self, hstep, Option.map_some, setPc_apply, setPc_setPc]

theorem reach_skip (choice : Bool) (h : Reach (system cfg) ok (s.setPc i pc))
    (hok : ok (s.setPc i pc) (.go i choice))
    (hstep : stepPc cfg (s.setPc i pc) i choice pc = some (.skip, pc')) :
    Reach (system cfg) ok (s.setPc i pc') :=
  reach_go choice h hok hstep

end Agents

section Rounds

variable {ι : Type} [DecidableEq ι] [Fintype ι] {cfg : Cfg}

/-- Agent `i` may start a receive, and it will find nothing. -/
structure Calm (i : ι) (s : St ι) : Prop where
  idle : s.pc i = .idle
  handle : s.handle i = some .rx
  empty : s.queue = []
  unlocked : s.locked .rx = false
  here : s.cnt .tx ≠ 0
  queue : ∀ x, (s.reg x).queue = []

/-- The waker that agent `i` registers. -/
def St.entrant (s : St ι) (i : ι) (state : WakerState) : WakerInner ι :=
  ⟨state, (s.reg .rx).seq + 1, .blocking, i, .rx, false⟩

/-- Agent `i` has started a receive and waits. -/
structure Waits (i : ι) (d : Bool) (s t : St ι) : Prop where
  pc : t.pc = update s.pc i (parkPc (.recv d) s.nextWaker)
  handle : t.handle = s.handle
  empty : t.queue = s.queue
  locked : t.locked = s.locked
  cnt : t.cnt = s.cnt
  reg : t.reg = update s.reg .rx ((s.reg .rx).regWaker s.nextWaker)
  waker : t.waker = update s.waker s.nextWaker (s.entrant i .waiting)
  next : t.nextWaker = s.nextWaker + 1

/-- The channel after `n` receives that timed out. -/
structure Later (n : Nat) (s t : St ι) : Prop where
  pc : t.pc = s.pc
  handle : t.handle = s.handle
  empty : t.queue = s.queue
  locked : t.locked = s.locked
  cnt : t.cnt = s.cnt
  queue : ∀ x, (t.reg x).queue = []
  seq : (t.reg .rx).seq = (s.reg .rx).seq + n
  waker : ∀ v, v < s.nextWaker → t.waker v = s.waker v
  next : s.nextWaker ≤ t.nextWaker

variable {s t u : St ι} {i : ι} {n m : Nat}

omit [DecidableEq ι] [Fintype ι] in
theorem window_of_nil (h : ∀ x, (s.reg x).queue = []) : Window s := by
  intro x v hv
  rw [h] at hv
  cases hv

omit [DecidableEq ι] [Fintype ι] in
/-- The only waker of the queues has the newest number. -/
theorem window_of_regWaker (h : ∀ x, (s.reg x).queue = [])
    (hreg : t.reg = update s.reg .rx ((s.reg .rx).regWaker n))
    (hseq : (t.waker n).seq = (s.reg .rx).seq + 1) : Window t := by
  intro x v hv
  rw [hreg] at hv ⊢
  by_cases hx : x = .rx
  · subst hx
    rw [update_self] at hv ⊢
    simp only [RegistryMulti.regWaker, h, List.nil_append, List.mem_singleton] at hv
    subst hv
    rw [hseq]
    show (s.reg .rx).seq + 1 < (s.reg .rx).seq + 1 + 2 ^ 32
    omega
  · rw [update_of_ne hx, h] at hv
    cases hv

/-! ### The steps of a receive that finds nothing -/

section Steps

variable {w : Nat} {choice d : Bool}

omit [DecidableEq ι] [Fintype ι] in
theorem attempt_recv (h : s.queue = []) : attempt cfg s (.recv d) = none := by
  simp only [attempt, Call.side, h]

omit [DecidableEq ι] in
theorem stepPc_start (h : s.queue = []) :
    stepPc cfg s i choice (.start (.recv d)) = some (.skip, .spin (.recv d) none) := by
  simp only [stepPc, attempt_recv h]

omit [DecidableEq ι] in
theorem stepPc_spin (h : s.queue = []) :
    stepPc cfg s i true (.spin (.recv d) none) = some (.skip, .reg (.recv d) none true) := by
  simp only [stepPc, attempt_recv h, afterSpin, regPc]
  rfl

omit [DecidableEq ι] in
theorem stepPc_reg (hkind : cfg.kind .rx = .multi) (h : s.locked .rx = false) :
    stepPc cfg s i choice (.reg (.recv d) none true) =
      some (.regNew .rx .blocking, .double (.recv d) s.nextWaker) := by
  simp only [stepPc, stepReg, Call.side, Call.thin, hkind, h]
  rfl

omit [DecidableEq ι] in
theorem stepPc_double (hkind : cfg.kind .rx = .multi) (h : s.queue = []) :
    stepPc cfg s i choice (.double (.recv d) w) = some (.skip, .commit (.recv d) w) := by
  simp only [stepPc, Call.side, attempt_recv h, afterDouble, hkind, Call.skipsCommit]
  rfl

omit [DecidableEq ι] in
theorem stepPc_commit (h : (s.waker w).state = .init) :
    stepPc cfg s i choice (.commit (.recv d) w) =
      some (.setState w .waiting, .closed (.recv d) w .waiting) := by
  simp only [stepPc, h, commitWaiting]

omit [DecidableEq ι] in
theorem stepPc_closed (h : s.cnt .tx ≠ 0) :
    stepPc cfg s i choice (.closed (.recv d) w .waiting) =
      some (.skip, parkPc (.recv d) w) := by
  simp only [stepPc, Call.side, Side.other, h, closedPc]
  rfl

omit [DecidableEq ι] in
theorem stepPc_deadline (hkind : cfg.kind .rx = .multi) :
    stepPc cfg s i true (.deadline (.recv true) w) =
      some (.skip, .abandon .rx w .waiting (.retn (.recv true) (some w) .timeout)) := by
  simp only [stepPc, abandonPc, Call.side, hkind]
  rfl

omit [DecidableEq ι] in
theorem stepPc_abandon {k : Cont} {x : Side} (h : (s.waker w).state = .waiting) :
    stepPc cfg s i false (.abandon x w .waiting k) =
      some (.setState w .closed, .clear x w false k) := by
  simp only [stepPc, h]
  rfl

omit [DecidableEq ι] in
theorem stepPc_clear {k : Cont} {x : Side} {oneshot : Bool} (h : (s.reg x).state.waker = true) :
    stepPc cfg s i choice (.clear x w oneshot k) = some (.skip, .clearLock x w oneshot k) := by
  simp only [stepPc, h, if_true]

omit [DecidableEq ι] in
/-- `_clear_wakers` takes a single live waker with the number it looks for out of the queue. -/
theorem stepPc_clearLock {k : Cont} {x : Side} {oneshot : Bool} {v : Nat}
    (h : s.locked x = false) (hqueue : (s.reg x).queue = [v]) (halive : s.alive v = true)
    (hseq : s.seq v = s.seq w) :
    ∃ r, stepPc cfg s i choice (.clearLock x w oneshot k) = some (.registry x r, k.pc) ∧
      r.queue = [] ∧ r.seq = (s.reg x).seq := by
  refine ⟨(s.reg x).clearWakers s.alive s.seq (fun v => (s.waker v).state) (s.seq w) oneshot,
    ?_, ?_, RegistryMulti.popped_seq⟩
  · simp only [stepPc, h]
    rfl
  · unfold RegistryMulti.clearWakers
    rw [RegistryMulti.popped_queue (RegistryMulti.clearQueue_sublist _ _ _ _ _ _), hqueue]
    simp [RegistryMulti.clearQueue, halive, hseq]

end Steps

/-- A receive gets to wait. -/
theorem exists_waits (d : Bool) (hkind : cfg.kind .rx = .multi) (h : Calm i s)
    (hs : Reach (system cfg) (fun s _ => Window s) s) :
    ∃ t, Reach (system cfg) (fun s _ => Window s) t ∧ Waits i d s t := by
  have hcalm : Window s := window_of_nil h.queue
  have hstart : Reach (system cfg) (fun s _ => Window s) (s.setPc i (.start (.recv d))) := by
    refine hs.step (.call i (.recv d)) hcalm ?_
    show step cfg s (.call i (.recv d)) = _
    simp only [step, h.idle, h.handle]
    rfl
  have hspin := reach_skip false hstart hcalm (stepPc_start h.empty)
  have hreg := reach_skip true hspin hcalm (stepPc_spin h.empty)
  have hdouble := reach_go false hreg hcalm (stepPc_reg hkind h.unlocked)
  -- the waker is registered
  obtain ⟨r, hr⟩ : ∃ r, r = s.apply i (.regNew .rx .blocking) := ⟨_, rfl⟩
  have hrw : r.waker = update s.waker s.nextWaker (s.entrant i .init) := by
    rw [hr]
    rfl
  have hrwindow : Window r := by
    refine window_of_regWaker h.queue (n := s.nextWaker) (by rw [hr]; rfl) ?_
    rw [hrw, update_self]
    rfl
  have hempty : r.queue = [] := by rw [hr]; exact h.empty
  rw [← hr, setPc_nextWaker] at hdouble
  have hcommit := reach_skip false hdouble hrwindow (stepPc_double hkind hempty)
  have hinit : (r.waker s.nextWaker).state = .init := by
    rw [hrw, update_self]
    rfl
  have hclosed := reach_go false hcommit hrwindow (stepPc_commit hinit)
  -- the waker waits
  obtain ⟨q, hq⟩ : ∃ q, q = r.apply i (.setState s.nextWaker .waiting) := ⟨_, rfl⟩
  have hqw : q.waker = update s.waker s.nextWaker (s.entrant i .waiting) := by
    rw [hq]
    simp [St.apply, St.setWaker, hrw, St.entrant]
  have hqwindow : Window q := by
    refine window_of_regWaker h.queue (n := s.nextWaker) (by rw [hq, hr]; rfl) ?_
    rw [hqw, update_self]
    rfl
  rw [← hq] at hclosed
  have hhere : q.cnt .tx ≠ 0 := by rw [hq, hr]; exact h.here
  have hdeadline := reach_skip false hclosed hqwindow (stepPc_closed hhere)
  refine ⟨_, hdeadline, ?_, ?_, ?_, ?_, ?_, ?_, hqw, ?_⟩
  all_goals
    rw [hq, hr]
    rfl

omit [Fintype ι] in
theorem window_setState {w : Nat} {state : WakerState} (h : Window s) :
    Window (s.apply i (.setState w state)) := by
  intro x v hv
  have hseq : ((s.apply i (.setState w state)).waker v).seq = (s.waker v).seq := by
    show (update s.waker w _ v).seq = _
    rcases eq_or_ne v w with rfl | hne
    · rw [update_self]
    · rw [update_of_ne hne]
  rw [hseq]
  exact h x v hv

/-- A receive whose deadline is over abandons its waker and goes on to `_clear_wakers`. -/
theorem reach_clearLock {w : Nat} (hkind : cfg.kind .rx = .multi)
    (h : Reach (system cfg) (fun s _ => Window s) s) (hwindow : Window s)
    (hpc : s.pc i = .deadline (.recv true) w) (hstate : (s.waker w).state = .waiting)
    (hflag : (s.reg .rx).state.waker = true) :
    Reach (system cfg) (fun s _ => Window s) ((s.apply i (.setState w .closed)).setPc i
      (.clearLock .rx w false (.retn (.recv true) (some w) .timeout))) := by
  rw [← setPc_self hpc] at h
  have habandon := reach_skip true h hwindow (stepPc_deadline hkind)
  have hclear := reach_go false habandon hwindow (stepPc_abandon hstate)
  exact reach_skip false hclear (window_setState (i := i) hwindow) (stepPc_clear hflag)

/-- The wait times out, and its waker is taken out of the queue. -/
theorem exists_timeout (hkind : cfg.kind .rx = .multi) (h : Calm i s) (hw : Waits i true s t)
    (ht : Reach (system cfg) (fun s _ => Window s) t) :
    ∃ u, Reach (system cfg) (fun s _ => Window s) u ∧ Later 1 s u := by
  have htw : t.waker s.nextWaker = s.entrant i .waiting := by rw [hw.waker, update_self]
  have htwindow : Window t := window_of_regWaker h.queue hw.reg (by rw [htw]; rfl)
  have hflag : (t.reg .rx).state.waker = true := by
    rw [hw.reg, update_self]
    simp [RegistryMulti.regWaker, h.queue]
  have hlock := reach_clearLock hkind ht htwindow (by rw [hw.pc, update_self]; rfl)
    (by rw [htw]; rfl) hflag
  -- the waker is abandoned
  obtain ⟨z, hz⟩ : ∃ z, z = t.apply i (.setState s.nextWaker .closed) := ⟨_, rfl⟩
  have hzw : z.waker = update s.waker s.nextWaker (s.entrant i .closed) := by
    rw [hz]
    simp [St.apply, St.setWaker, hw.waker, St.entrant]
  have hzreg : z.reg = update s.reg .rx ((s.reg .rx).regWaker s.nextWaker) := by
    rw [hz]
    exact hw.reg
  have hzwindow : Window z := by
    rw [hz]
    exact window_setState htwindow
  rw [← hz] at hlock
  have hunlocked : z.locked .rx = false := by
    rw [hz]
    exact (congrFun hw.locked .rx).trans h.unlocked
  have hclears : ∃ r, stepPc cfg (z.setPc i (.clearLock .rx s.nextWaker false
        (.retn (.recv true) (some s.nextWaker) .timeout))) i false
      (.clearLock .rx s.nextWaker false (.retn (.recv true) (some s.nextWaker) .timeout)) =
        some (.registry .rx r, .retn (.recv true) (some s.nextWaker) .timeout) ∧
      r.queue = [] ∧ r.seq = (z.reg .rx).seq := by
    refine stepPc_clearLock (v := s.nextWaker) hunlocked ?_ (decide_eq_true ⟨i, ?_⟩) rfl
    · simp [hzreg, RegistryMulti.regWaker, h.queue]
    · rw [setPc_pc_self]
      exact List.mem_cons_self
  obtain ⟨r, hstep, hrqueue, hrseq⟩ := hclears
  have hretn := reach_go false hlock hzwindow hstep
  -- the waker is out of the queue
  obtain ⟨y, hy⟩ : ∃ y, y = z.apply i (.registry .rx r) := ⟨_, rfl⟩
  rw [← hy] at hretn
  have hyqueue : ∀ x, (y.reg x).queue = [] := by
    intro x
    rw [hy, registry_queue]
    split_ifs with hx
    · exact hrqueue
    · rw [hzreg, update_of_ne hx, h.queue]
  have hdone : Reach (system cfg) (fun s _ => Window s)
      ((y.apply i (.ret (.recv true) .timeout)).setPc i .idle) :=
    reach_go false hretn (window_of_nil hyqueue) rfl
  refine ⟨_, hdone, ?_, ?_, ?_, ?_, ?_, hyqueue, ?_, ?_, ?_⟩
  · rw [hy, hz]
    show update t.pc i .idle = s.pc
    rw [hw.pc, update_idem, ← h.idle, update_eq_self]
  · rw [hy, hz]; exact hw.handle
  · rw [hy, hz]; exact hw.empty
  · rw [hy, hz]; exact hw.locked
  · rw [hy, hz]; exact hw.cnt
  · have hseq : (y.reg .rx).seq = r.seq := by
      rw [hy]
      simp [St.apply, St.setReg]
    show (y.reg .rx).seq = _
    rw [hseq, hrseq, hzreg, update_self]
    rfl
  · intro v hv
    have hyw : y.waker = z.waker := by rw [hy]; rfl
    show y.waker v = s.waker v
    rw [hyw, hzw, update_of_ne (Nat.ne_of_lt hv)]
  · have hyn : y.nextWaker = s.nextWaker + 1 := by
      rw [hy, hz]
      exact hw.next
    show s.nextWaker ≤ y.nextWaker
    omega

omit [DecidableEq ι] [Fintype ι] in
theorem Later.calm (h : Calm i s) (hl : Later n s t) : Calm i t :=
  ⟨hl.pc ▸ h.idle, hl.handle ▸ h.handle, hl.empty.trans h.empty, hl.locked ▸ h.unlocked,
    hl.cnt ▸ h.here, hl.queue⟩

omit [DecidableEq ι] [Fintype ι] in
/-- Timed-out receives add up. -/
theorem Later.trans (h : Later n s t) (h' : Later m t u) : Later (n + m) s u := by
  refine ⟨h'.pc.trans h.pc, h'.handle.trans h.handle, h'.empty.trans h.empty,
    h'.locked.trans h.locked, h'.cnt.trans h.cnt, h'.queue, ?_, fun v hv => ?_,
    h.next.trans h'.next⟩
  · rw [h'.seq, h.seq, Nat.add_assoc]
  · rw [h'.waker v (Nat.lt_of_lt_of_le hv h.next), h.waker v hv]

/-- Any number of receives time out one after the other. -/
theorem rounds (hkind : cfg.kind .rx = .multi) (h : Calm i s)
    (hs : Reach (system cfg) (fun s _ => Window s) s) (n : Nat) :
    ∃ t, Reach (system cfg) (fun s _ => Window s) t ∧ Later n s t := by
  induction n with
  | zero => exact ⟨s, hs, rfl, rfl, rfl, rfl, rfl, h.queue, rfl, fun _ _ => rfl, Nat.le_refl _⟩
  | succ n ih =>
    obtain ⟨t, ht, hlater⟩ := ih
    have hcalm := hlater.calm h
    obtain ⟨u, hu, hwaits⟩ := exists_waits true hkind hcalm ht
    obtain ⟨v, hv, hround⟩ := exists_timeout hkind hcalm hwaits hu
    exact ⟨v, hv, hlater.trans hround⟩

end Rounds

end Crossfire.Channel
