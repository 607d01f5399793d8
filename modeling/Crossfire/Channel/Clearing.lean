import Crossfire.Channel.Disconnect
import Crossfire.Channel.Rounds

/-!
# `_clear_wakers` and the other waiters

A waker that leaves before it is woken takes itself out of the queue by `_clear_wakers`, which looks
for its 32-bit number and on the way drops entries that are gone or already woken.

`clear_keeps_waiters` says that the queue has every waker once and in the order of the
registrations, and that `_clear_wakers` takes away no other waker that still waits, in the runs in
which fewer than `2 ^ 32` registrations were made since those of the wakers it compares. It is not
enough to count from the oldest waker of the queue (`clear_removes_waiter`): a waker that was popped
and not yet woken is not in the queue, and it may be the oldest.
-/

set_option autoImplicit false

namespace Crossfire.Channel

open Lib.Interleaving Crossfire.Waker Crossfire.Registry Function

section Clearing

variable {ι : Type} [DecidableEq ι] [Fintype ι] {cfg : Cfg} {s t : St ι} {i : ι} {x : Side}
  {w : Nat}

/-- One call of `_clear_wakers` under the lock. -/
structure Cleared (s t : St ι) (x : Side) (w : Nat) : Prop where
  order : (t.reg x).queue.Sublist (s.reg x).queue
  removed : ∀ v ∈ (s.reg x).queue, s.alive v = true → v ∉ (t.reg x).queue →
    v = w ∨ (s.waker v).state = .woken ∨ (s.waker v).state = .closed

/-- What `_clear_wakers` takes away. -/
theorem cleared_of_step {oneshot choice : Bool} {k : Cont} {ok : St ι → Act ι → Prop}
    (h : Reach (system cfg) ok s) (hpc : s.pc i = .clearLock x w oneshot k)
    (hok : clearOk s (.go i choice)) (hstep : step cfg s (.go i choice) = some t) :
    Cleared s t x w := by
  obtain ⟨e, pc', hpcStep, rfl⟩ : ∃ e pc', PcStep cfg s i (s.pc i) e pc' ∧
      t = (s.apply i e).setPc i pc' := by
    rcases step_cases hstep with ⟨j, _, e, pc', hact, hpcStep, rfl⟩ | hcall
    · cases hact
      exact ⟨e, pc', hpcStep, rfl⟩
    · cases hcall
  rw [hpc] at hpcStep
  cases hpcStep with
  | recv _ c k m rest _ tries => cases tries
  | send _ c k m _ tries => cases tries
  | clearLock _ _ _ _ unlocked =>
    have hqueue : (((s.apply i (.registry x ((s.reg x).clearWakers s.alive s.seq
        (fun v => (s.waker v).state) (s.seq w) oneshot))).setPc i k.pc).reg x).queue =
        ((s.reg x).clearWakers s.alive s.seq (fun v => (s.waker v).state) (s.seq w)
          oneshot).queue := by
      rw [setPc_reg, registry_queue, if_pos rfl]
    refine ⟨?_, fun v hv halive hgone => ?_⟩
    · rw [hqueue]
      exact clearWakers_sublist x w oneshot
    · rw [hqueue] at hgone
      by_contra hother
      rw [not_or, not_or] at hother
      obtain ⟨hne, hwoken, hclosed⟩ := hother
      apply hgone
      have hseq : s.seq v ≠ s.seq w := fun heq =>
        hne (hok (x, w) (by rw [hpc]; rfl) v hv halive heq)
      have hstate : (s.waker v).state.isWoken = false := by
        have hdone := (told_of_reach h).2.notDone v
        cases hst : (s.waker v).state <;> first | rfl | contradiction
      unfold RegistryMulti.clearWakers
      rw [RegistryMulti.popped_queue (RegistryMulti.clearQueue_sublist _ _ _ _ _ _)]
      exact RegistryMulti.mem_clearQueue hv halive hseq hstate

/-- In the runs in which fewer than `2 ^ 32` registrations were made since those of the wakers that
a `_clear_wakers` compares: every queue has a waker at most once and stands in the order of the
registrations, and a `_clear_wakers` for `w` takes away of the live wakers only `w` and some that
were woken or closed, and keeps the order of the rest. -/
theorem clear_keeps_waiters (h : Reach (system cfg) windowOk s) :
    (∀ x, (s.reg x).queue.Nodup ∧
      (s.reg x).queue.Pairwise fun v w => (s.waker v).seq < (s.waker w).seq) ∧
    ∀ i choice x w oneshot k t, s.pc i = .clearLock x w oneshot k → windowOk s (.go i choice) →
      step cfg s (.go i choice) = some t → Cleared s t x w := by
  have hreach := clearOk_of_windowOk h
  have hplaced := placed_of_reach hreach
  have hnumbered := numbered_of_reach hreach
  refine ⟨fun x => ⟨hplaced.nodup x, hnumbered.order x⟩, ?_⟩
  intro i choice x w oneshot k t hpc hok hstep
  exact cleared_of_step h hpc (hnumbered.clearOk (held_of_reach h) hplaced hok) hstep

end Clearing

/-- An unbounded channel with many senders and many receivers. -/
def unboundedMpmc : Cfg where
  cap := none
  kind
    | .tx => .dummy
    | .rx => .multi
  willWake k k' := k == k'
  selectClaims := true

/-- Two receivers wait, and the first one gives up: the second one stays in the queue. -/
theorem clear_keeps_second :
    ∃ s t : St (Fin 3), Reach (system unboundedMpmc) windowOk s ∧
      step unboundedMpmc s (.go 1 false) = some t ∧ (s.reg .rx).queue = [0, 1] ∧
      1 ∈ (t.reg .rx).queue := by
  have hnew : Reach (system unboundedMpmc) windowOk (St.new (0 : Fin 3) 1) :=
    .init ⟨0, 1, by decide, rfl⟩
  obtain ⟨s, hs, hpc, hqueue, halive, hstate, hok, hsome⟩ := hnew.exists_of_run
    [.clone 1 2, .call 1 (.recv true), .go 1 false, .go 1 true, .go 1 false, .go 1 false,
      .go 1 false, .go 1 false, .call 2 (.recv true), .go 2 false, .go 2 true, .go 2 false,
      .go 2 false, .go 2 false, .go 2 false, .go 1 true, .go 1 false, .go 1 false]
    (fun s => s.pc 1 = .clearLock .rx 0 false (.retn (.recv true) (some 0) .timeout) ∧
      (s.reg .rx).queue = [0, 1] ∧ s.alive 1 = true ∧ (s.waker 1).state = .waiting ∧
      windowOk s (.go 1 false) ∧ (step unboundedMpmc s (.go 1 false)).isSome = true)
    (by decide +kernel)
  obtain ⟨t, ht⟩ := Option.isSome_iff_exists.mp hsome
  refine ⟨s, t, hs, ht, hqueue, ?_⟩
  have hcleared := (clear_keeps_waiters hs).2 1 false .rx 0 false _ t hpc hok ht
  by_contra hgone
  have hmem : 1 ∈ (s.reg .rx).queue := by rw [hqueue]; decide
  rcases hcleared.removed 1 hmem halive hgone with hself | hwoken | hclosed
  · cases hself
  · rw [hstate] at hwoken; cases hwoken
  · rw [hstate] at hclosed; cases hclosed

instance (s : St (Fin 3)) : Decidable (Window s) :=
  decidable_of_iff
    ((∀ v ∈ (s.reg .tx).queue, (s.reg .tx).seq < (s.waker v).seq + 2 ^ 32) ∧
      ∀ v ∈ (s.reg .rx).queue, (s.reg .rx).seq < (s.waker v).seq + 2 ^ 32)
    ⟨fun h x => match x with | .tx => h.1 | .rx => h.2, fun h => ⟨h .tx, h .rx⟩⟩

/-- Receiver `2` is about to take its abandoned waker `0` out of the queue. Waker `v` of receiver
`1` stands there with the same 32-bit number. -/
structure Confused (d : Bool) (v : Nat) (s : St (Fin 3)) : Prop where
  sender : s.pc 0 = .fire .rx (.wake 0 .load .stop) (.retn (.send 0 false) none (.ok 0))
  waiter : s.pc 1 = parkPc (.recv d) v
  leaver : s.pc 2 = .clearLock .rx 0 false (.retn (.recv true) (some 0) .timeout)
  handle : s.handle 0 = some .tx
  cnt : s.cnt .tx = 1
  unlocked : s.locked .rx = false
  queue : (s.reg .rx).queue = [v]
  ne : v ≠ 0
  abandoned : (s.waker 0).state = .closed
  waits : (s.waker v).state = .waiting
  notCalled : (s.waker v).issued = false
  seq : s.seq v = s.seq 0

/-- The waker of receiver `2` is popped by a sender that stops before it wakes it. Receiver `1`
then times out until the numbers have come around, and waits with the number of that waker. -/
theorem exists_confused (d : Bool) : ∃ (s : St (Fin 3)) (v : Nat),
    Reach (system unboundedMpmc) (fun s _ => Window s) s ∧ Window s ∧ Confused d v s := by
  have hnew : Reach (system unboundedMpmc) (fun s _ => Window s) (St.new (0 : Fin 3) 1) :=
    .init ⟨0, 1, by decide, rfl⟩
  obtain ⟨s, hs, htest⟩ := hnew.exists_of_run
    [.clone 1 2, .call 2 (.recv true), .go 2 false, .go 2 true, .go 2 false, .go 2 false,
      .go 2 false, .go 2 false, .call 0 (.send 0 false), .go 0 false, .go 0 false, .go 0 false,
      .go 0 false, .call 1 .tryRecv, .go 1 false, .go 1 false, .go 1 false]
    (fun s => s.pc 1 = .idle ∧ s.handle 1 = some .rx ∧ s.queue = [] ∧
      s.locked .rx = false ∧ s.cnt .tx = 1 ∧ (s.reg .tx).queue = [] ∧ (s.reg .rx).queue = [] ∧
      (s.reg .rx).seq = 1 ∧ s.pc 2 = .deadline (.recv true) 0 ∧ (s.waker 0).state = .waiting ∧
      (s.waker 0).seq = 1 ∧ s.nextWaker = 1 ∧ s.handle 0 = some .tx ∧
      s.pc 0 = .fire .rx (.wake 0 .load .stop) (.retn (.send 0 false) none (.ok 0)))
    (by decide +kernel)
  obtain ⟨hidle, hhandle, hempty, hunlocked, hcnt, htxq, hrxq, hseq, hpc, hstate, hnumber,
    hnext, hsender, hfire⟩ := htest
  have hcalm : Calm 1 s := ⟨hidle, hhandle, hempty, hunlocked, by rw [hcnt]; exact Nat.one_ne_zero,
    fun x => by cases x <;> assumption⟩
  -- the numbers come around, and receiver `1` waits with the number of waker `0`
  obtain ⟨t, ht, hlater⟩ := rounds rfl hcalm hs (2 ^ 32 - 1)
  have htcalm := hlater.calm hcalm
  obtain ⟨u, hu, hwaits⟩ := exists_waits d rfl htcalm ht
  obtain ⟨v, hv⟩ : ∃ v, v = t.nextWaker := ⟨_, rfl⟩
  have hpos : v ≠ 0 := by
    have := hlater.next
    omega
  have huw : u.waker v = t.entrant 1 .waiting := by rw [hwaits.waker, hv, update_self]
  have huold : u.waker 0 = s.waker 0 := by
    rw [hwaits.waker, update_of_ne (by omega), hlater.waker 0 (by omega)]
  have hupc (j : Fin 3) (hj : j ≠ 1) : u.pc j = s.pc j := by
    rw [hwaits.pc, update_of_ne hj, hlater.pc]
  have huwindow : Window u := by
    refine window_of_regWaker htcalm.queue hwaits.reg ?_
    rw [← hv, huw]
    rfl
  have hureg : u.reg .rx = (t.reg .rx).regWaker v := by
    rw [hwaits.reg, update_self, hv]
  have hflag : (u.reg .rx).state.waker = true := by
    rw [hureg]
    simp [RegistryMulti.regWaker, hlater.queue]
  -- receiver `2` gives up
  have hlock := reach_clearLock rfl hu huwindow ((hupc 2 (by decide)).trans hpc)
    (by rw [huold, hstate]) hflag
  refine ⟨_, v, hlock, window_setState (i := 2) huwindow, ?_⟩
  have hzw : (u.apply 2 (.setState 0 .closed)).waker v = t.entrant 1 .waiting := by
    rw [← huw]
    exact update_of_ne hpos _ _
  have hzold : ((u.apply 2 (.setState 0 .closed)).waker 0).seq = 1 := by
    rw [← hnumber, ← huold]
    simp [St.apply, St.setWaker]
  constructor
  case sender =>
    rw [setPc_pc_of_ne (by decide), apply_pc, hupc 0 (by decide), hfire]
  case waiter =>
    rw [setPc_pc_of_ne (by decide), apply_pc, hwaits.pc, update_self, hv]
  case leaver => exact setPc_pc_self ..
  case handle =>
    rw [setPc_handle, apply_handle, hwaits.handle, hlater.handle, hsender]
  case cnt => rw [setPc_cnt, apply_cnt, hwaits.cnt, hlater.cnt, hcnt]
  case unlocked => exact (congrFun hwaits.locked .rx).trans htcalm.unlocked
  case queue =>
    show (u.reg .rx).queue = [v]
    rw [hureg]
    simp [RegistryMulti.regWaker, hlater.queue]
  case ne => exact hpos
  case abandoned => simp [St.apply, St.setWaker]
  case waits => rw [setPc_waker, hzw]; rfl
  case notCalled => rw [setPc_waker, hzw]; rfl
  case seq =>
    show u32 ((u.apply 2 (.setState 0 .closed)).waker v).seq =
      u32 ((u.apply 2 (.setState 0 .closed)).waker 0).seq
    rw [hzw, hzold]
    show u32 ((t.reg .rx).seq + 1) = u32 1
    rw [hlater.seq, hseq]
    rfl

theorem Confused.alive {d : Bool} {v : Nat} {s : St (Fin 3)} (h : Confused d v s) :
    s.alive v = true := by
  refine St.alive_of_own (i := 1) ?_
  rw [h.waiter]
  cases d <;> rfl

/-- Receiver `2` takes receiver `1` out of the queue. -/
theorem Confused.step {d : Bool} {v : Nat} {s : St (Fin 3)} (h : Confused d v s) :
    ∃ r, step unboundedMpmc s (.go 2 false) = some ((s.apply 2 (.registry .rx r)).setPc 2
      (.retn (.recv true) (some 0) .timeout)) ∧ r.queue = [] := by
  have hclears : ∃ r, stepPc unboundedMpmc s 2 false (.clearLock .rx 0 false
        (.retn (.recv true) (some 0) .timeout)) =
        some (.registry .rx r, .retn (.recv true) (some 0) .timeout) ∧
      r.queue = [] ∧ r.seq = (s.reg .rx).seq :=
    stepPc_clearLock h.unlocked h.queue h.alive h.seq
  obtain ⟨r, hstep, hrqueue, -⟩ := hclears
  refine ⟨r, ?_, hrqueue⟩
  simp only [Channel.step, h.leaver, hstep, Option.map_some]

/-- The numbers have come around since receiver `2` registered. When it gives up, it takes receiver
`1` out of the queue. -/
theorem clear_removes_waiter :
    ∃ (s t : St (Fin 3)) (w v : Nat) (k : Cont),
      Reach (system unboundedMpmc) (fun s _ => Window s) s ∧ Window s ∧
      s.pc 2 = .clearLock .rx w false k ∧ step unboundedMpmc s (.go 2 false) = some t ∧
      v ∈ (s.reg .rx).queue ∧ s.alive v = true ∧ v ≠ w ∧ (s.waker v).state = .waiting ∧
      v ∉ (t.reg .rx).queue := by
  obtain ⟨s, v, hs, hwindow, h⟩ := exists_confused true
  obtain ⟨r, hstep, hrqueue⟩ := h.step
  refine ⟨s, _, 0, v, _, hs, hwindow, h.leaver, hstep, ?_, h.alive, h.ne, h.waits, ?_⟩
  · rw [h.queue]
    exact List.mem_singleton_self v
  · rw [setPc_reg, registry_queue, if_pos rfl, hrqueue]
    exact List.not_mem_nil

end Crossfire.Channel
