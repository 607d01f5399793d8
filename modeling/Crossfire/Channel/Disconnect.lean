import Crossfire.Channel.Handles

/-!
# `Disconnected` comes after the last message

A receiver is told `Disconnected`, or given the null token of `try_select`, only when the senders
are gone and the queue is empty. The two reads are separate steps of the receiver, in this order on
every path, and between them the count of the senders stays at zero and the queue can only shrink.

The invariant `Told` follows a receiver along its path: it has seen the senders gone
(`Pc.sawClosed`), or its result says so (`Pc.result`). A waker that reads `Closed` was closed by
`close` and not by `abandon`, which only the owner of a waker calls. `disconnected_after_last` is
the result.
-/

set_option autoImplicit false

namespace Crossfire.Channel

open Lib.Interleaving Crossfire.Waker Crossfire.Registry

/-! ## Results on the way -/

/-- The results that say that the senders are gone. -/
def Ret.ends : Ret → Bool
  | .disconnected | .nullToken => true
  | .ok _ | .empty | .full | .timeout | .pending => false

/-- What the call is going to return. -/
def Cont.result : Cont → Option (Call × Ret)
  | .retn c _ r | .keep c _ r | .cancel c _ r => some (c, r)
  | .reuse c _ .done => some (c, .ok (c.msg.getD 0))
  | .reuse _ _ _ | .idle | .reg _ _ | .spin _ _ => none

/-- The result an agent is about to return. -/
def Pc.result : Pc → Option (Call × Ret)
  | .retn c _ r | .keep c _ r | .cancel c _ r => some (c, r)
  | .reuse c _ .done => some (c, .ok (c.msg.getD 0))
  | .clear _ _ _ k | .clearLock _ _ _ k | .abandon _ _ _ k | .fire _ _ k => k.result
  | _ => none

@[simp] theorem Cont.result_pc (k : Cont) : k.pc.result = k.result := by
  cases k with
  | reuse c w target => cases target <;> rfl
  | _ => rfl

/-- A receiver that has seen that the senders are gone. -/
def Pc.sawClosed : Pc → Bool
  | .last _ _ => true
  | .selectPop _ seen => seen
  | .closed c _ .closed => decide (c.side = .rx)
  | _ => false

@[simp] theorem Cont.sawClosed_pc (k : Cont) : k.pc.sawClosed = false := by cases k <;> rfl

section Steps

variable {ι : Type} [Fintype ι] {cfg : Cfg} {s : St ι} {i : ι} {e : Eff} {pc pc' : Pc} {x : Side}
  {c : Call} {k : Cont} {w : Nat} {r : Ret}

/-- Where the result `r` of call `c` comes from in a step from `pc`. -/
inductive Results (s : St ι) (pc : Pc) (e : Eff) (c : Call) : Ret → Prop
  | same (r : Ret) (old : pc.result = some (c, r)) : Results s pc e c r
  | ok (m : Nat) (sent : c.side = .tx → e = .push m) : Results s pc e c (.ok m)
  | goesOn (r : Ret) (ends : r.ends = false) (notOk : ∀ m, r ≠ .ok m) : Results s pc e c r
  | sender (r : Ret) (side : c.side = .tx) (notOk : ∀ m, r ≠ .ok m) : Results s pc e c r
  /-- The second of the two reads. -/
  | ended (r : Ret) (saw : pc.sawClosed = true) (skip : e = .skip) (queue : s.queue = [])
      (notOk : ∀ m, r ≠ .ok m) : Results s pc e c r

theorem Side.eq_tx_of_ne {x : Side} (h : x ≠ .rx) : x = .tx := by
  cases x
  · rfl
  · exact absurd rfl h

omit [Fintype ι] in
theorem Fires.result (h : Fires cfg x k pc') : pc'.result = k.result := by
  cases h with
  | dummy kind => exact Cont.result_pc k
  | fire kind => rfl

theorem Tries.result_recv {k : Ret → Cont} {m : Nat} (h : Tries pc c k) (hside : c.side = .rx) :
    (k (.ok m)).result = some (c, .ok m) := by
  cases h with
  | doubleTx c v side => rw [side] at hside; cases hside
  | _ => rfl

theorem Tries.result_send {k : Ret → Cont} {m : Nat} (h : Tries pc c k) (hmsg : c.msg = some m) :
    (k (.ok m)).result = some (c, .ok m) := by
  cases h with
  | doubleTx c v side => simp [Cont.result, hmsg]
  | _ => rfl

theorem Sleeps.result (h : Sleeps c w pc') : pc'.result = none := by cases h <;> rfl

omit [Fintype ι] in
/-- A waiter of a blocking call that gives up with an error is a sender. -/
theorem Settles.results {state : WakerState} {c' : Call} (h : Settles c w state pc')
    (hblocking : c.isBlocking = true) (hr : pc'.result = some (c', r)) : Results s pc e c' r := by
  cases h with
  | spin | last => cases hr
  | err woken side =>
    cases hr
    refine .sender _ (Side.eq_tx_of_ne fun hrx => ?_) nofun
    rw [side hrx] at hblocking
    cases hblocking
  | sleep _ notWoken goes => rw [goes.result] at hr; cases hr

/-- What a poll returns by its waker alone. -/
theorem reused_result {o : Option Nat} {state : WakerState} {c' : Call}
    (hr : (reused c o state).result = some (c', r)) :
    c' = c ∧ (state = .done ∧ r = .ok (c.msg.getD 0) ∨ r = .disconnected) := by
  cases state with
  | woken => cases hr
  | done => cases hr; exact ⟨rfl, .inl ⟨rfl, rfl⟩⟩
  | init | waiting | closed => cases hr; exact ⟨rfl, .inr rfl⟩

omit [Fintype ι] in
/-- Where the result comes from after `cancel_reuse_waker`. -/
theorem results_of_reused {o : Option Nat} {target state : WakerState} {c' : Call}
    (hside : c.side = .tx) (hstate : state = .done → target = .done)
    (hr : (reused c o state).result = some (c', r)) :
    Results s (.reuse c w target) e c' r := by
  obtain ⟨rfl, ⟨hdone, rfl⟩ | rfl⟩ := reused_result hr
  · rw [hstate hdone]
    exact .same _ rfl
  · exact .sender _ hside nofun

theorem fireStep_result {f : FirePc} (h : FireStep cfg s x k f e pc') : pc'.result = k.result := by
  cases h with
  | skip _ _ _ _ _ _ goes | wakeByRef _ _ _ _ goes =>
    cases goes <;> first | exact Cont.result_pc k | rfl
  | _ => first | exact Cont.result_pc k | rfl

/-- Where a result comes from. -/
theorem results_of_pcStep (h : PcStep cfg s i pc e pc') (hfits : pc.Fits)
    (hdone : ∀ v, (s.waker v).state ≠ .done) (hr : pc'.result = some (c, r)) :
    Results s pc e c r := by
  cases h with
  | recv _ c' k m rest _ tries side queue goes =>
    rw [goes.result, tries.result_recv side] at hr
    cases hr
    exact .ok m fun htx => absurd (side.symm.trans htx) nofun
  | send _ c' k m _ tries side msg room goes =>
    rw [goes.result, tries.result_send msg] at hr
    cases hr
    exact .ok m fun _ => rfl
  | sendGone | sinkGone => cases hr; exact .sender _ hfits.1 nofun
  | tryFull | openFail | recasPending | closedKeep | timeout | timeoutSingle =>
    cases hr
    exact .goesOn _ rfl nofun
  | lastFail c' o fail | lastKeep c' w fail call =>
    cases hr
    exact .ended _ rfl rfl (queue_eq_nil_of_attempt fail hfits) nofun
  | recasErr c' w state side | recasKeep c' w state side | closedErr c' w state here side =>
    cases hr
    exact .sender _ side nofun
  | closedGone c' w state gone side =>
    have hregisters : c'.registers = true := hfits
    cases hr
    refine .sender _ (Side.eq_tx_of_ne fun hrx => ?_) nofun
    rw [side hrx] at hregisters
    cases hregisters
  | closedSettle c' w state _ here blocking goes => exact goes.results (blocking hfits) hr
  | snoozeWoken c' w _ state goes | state c' w _ goes => exact goes.results hfits hr
  | congestNot c' w _ goes | snoozeDone c' w _ goes => rw [goes.result] at hr; cases hr
  | cancel | cancelled | clear | abandonOk | abandonRetry => exact .same _ hr
  | reuseWoken c' w target state kind woken hstate =>
    rw [Cont.result_pc] at hr
    refine results_of_reused hfits.2.1 (fun hs => ?_) hr
    rcases hstate with rfl | rfl
    · exact hs
    · exact absurd hs (hdone w)
  | reuseClear c' w target => exact results_of_reused hfits.2.1 id hr
  | reuse c' w target kind =>
    rw [Cont.result_pc] at hr
    exact results_of_reused hfits.2.1 id hr
  | clearSkip | clearLock | abandonErr =>
    rw [Cont.result_pc] at hr
    exact .same _ hr
  | abandonFire x w expected k _ goes => rw [goes.result] at hr; exact .same _ hr
  | fire x f k _ _ step => rw [fireStep_result step] at hr; exact .same _ hr
  | close x f _ _ step => cases step <;> cases hr
  | selectNone final closed queue =>
    cases hr
    cases closed
    · exact .goesOn _ rfl nofun
    · exact .ended _ rfl rfl queue nofun
  | _ => cases hr

/-- What a returning agent returns. -/
theorem result_of_ret (h : PcStep cfg s i pc (.ret c r) pc') : pc.result = some (c, r) := by
  cases h with
  | retn | keepPending | keep => rfl
  | fire x f k _ _ step => cases step
  | close x f _ _ step => cases step

/-- The first of the two reads: the count, or a waker that was closed. -/
theorem sawClosed_of_pcStep (h : PcStep cfg s i pc e pc') (hsaw : pc'.sawClosed = true) :
    pc.sawClosed = true ∨ s.cnt .tx = 0 ∨
      ∃ v, pc.own = some v ∧ (s.waker v).state = .closed ∧ pc.side = some .rx := by
  have hsettles {c' : Call} {v : Nat} {state : WakerState} (goes : Settles c' v state pc') :
      state = .closed ∧ c'.side = .rx := by
    cases goes with
    | last closed side => exact ⟨closed, side⟩
    | sleep _ notWoken goes => cases goes <;> cases hsaw
    | _ => cases hsaw
  cases h with
  | recv _ _ _ _ _ _ _ _ _ goes | send _ _ _ _ _ _ _ _ _ goes | abandonFire _ _ _ _ _ goes =>
    cases goes with
    | dummy kind => rw [Cont.sawClosed_pc] at hsaw; cases hsaw
    | fire kind => cases hsaw
  | recasClosed c' w state side =>
    exact .inr (.inr ⟨w, rfl, state, congrArg some side⟩)
  | recasSame c' w state side =>
    cases hst : (s.waker w).state with
    | closed => rw [hst] at state; cases state
    | _ => rw [hst] at hsaw; cases hsaw
  | commit c' w =>
    cases hst : (s.waker w).state with
    | closed =>
      rw [hst] at hsaw
      exact .inr (.inr ⟨w, rfl, hst, congrArg some (of_decide_eq_true hsaw)⟩)
    | _ => rw [hst] at hsaw; cases hsaw
  | closedLast c' w state gone side => rw [side] at gone; exact .inr (.inl gone)
  | closedSettle c' w state _ here blocking goes =>
    obtain ⟨rfl, hside⟩ := hsettles goes
    exact .inl (decide_eq_true hside)
  | snoozeWoken c' w _ state goes =>
    obtain ⟨hstate, hside⟩ := hsettles goes
    exact .inr (.inr ⟨w, rfl, hstate, congrArg some hside⟩)
  | state c' w _ goes =>
    obtain ⟨hstate, hside⟩ := hsettles goes
    unfold waiterState at hstate
    split_ifs at hstate
    exact .inr (.inr ⟨w, rfl, hstate, congrArg some hside⟩)
  | congestNot c' w _ goes | snoozeDone c' w _ goes => cases goes <;> cases hsaw
  | reuseWoken | reuse | clearSkip | clearLock | abandonErr =>
    rw [Cont.sawClosed_pc] at hsaw
    cases hsaw
  | fire x f k _ _ step =>
    cases step with
    | skip _ _ _ _ _ _ goes | wakeByRef _ _ _ _ goes =>
      cases goes <;> first | cases hsaw | (rw [Cont.sawClosed_pc] at hsaw; cases hsaw)
    | _ => first | cases hsaw | (rw [Cont.sawClosed_pc] at hsaw; cases hsaw)
  | close x f _ _ step => cases step <;> cases hsaw
  | tryLast gone => exact .inr (.inl gone)
  | selectClosed => exact .inr (.inl (of_decide_eq_true hsaw))
  | _ => cases hsaw

theorem Tries.side {k : Ret → Cont} (h : Tries pc c k) : pc.side = some c.side := by
  cases h <;> rfl

/-- Only a sender pushes. -/
theorem side_of_push {m : Nat} (h : PcStep cfg s i pc (.push m) pc') : pc.side = some .tx := by
  cases h with
  | send _ c k _ _ tries side msg room goes => rw [tries.side, side]
  | fire x f k _ _ step => cases step
  | close x f _ _ step => cases step

end Steps

/-! ## The history of an effect -/

section History

variable {ι : Type} [DecidableEq ι] {s : St ι} {i : ι} {e : Eff}

theorem apply_history (h : s.pushed = s.taken ++ s.queue) :
    (s.apply i e).pushed = (s.apply i e).taken ++ (s.apply i e).queue := by
  cases e with
  | pop =>
    simp only [St.apply, h]
    cases s.queue <;> simp
  | push m => simp [St.apply, h]
  | wakeByRef w => rw [apply_wakeByRef]; exact h
  | _ => exact h

theorem mem_pushed_apply {m : Nat} (h : m ∈ s.pushed) : m ∈ (s.apply i e).pushed := by
  cases e with
  | push m' => exact List.mem_append_left _ h
  | wakeByRef w => rw [apply_wakeByRef]; exact h
  | _ => exact h

/-- Without a push an empty queue stays empty. -/
theorem queue_apply_eq_nil (h : s.queue = []) (he : ∀ m, e ≠ .push m) :
    (s.apply i e).queue = [] := by
  cases e with
  | pop => simp [St.apply, h]
  | push m => exact absurd rfl (he m)
  | wakeByRef w => rw [apply_wakeByRef]; exact h
  | _ => exact h

/-- A message is sent when its call returns `Ok`. -/
theorem mem_sentOk_apply {m : Nat} (h : m ∈ (s.apply i e).sentOk) :
    m ∈ s.sentOk ∨ ∃ c, e = .ret c (.ok m) ∧ c.side = .tx := by
  cases e with
  | ret c r =>
    simp only [St.apply] at h
    split at h
    · next m' hside =>
        rcases List.mem_cons.mp h with rfl | h
        · exact .inr ⟨c, rfl, hside⟩
        · exact .inl h
    · exact .inl h
  | wakeByRef w => rw [apply_wakeByRef] at h; exact .inl h
  | _ => exact .inl h

/-- A result is an old one or that of this step. -/
theorem ret_apply {j : ι} {c : Call} {r : Ret} (h : (s.apply i e).ret j = some (c, r)) :
    s.ret j = some (c, r) ∨ j = i ∧ e = .ret c r := by
  cases e with
  | ret c' r' =>
    by_cases hj : j = i
    · subst hj
      simp only [St.apply, Function.update_self, Option.some.injEq, Prod.mk.injEq] at h
      obtain ⟨rfl, rfl⟩ := h
      exact .inr ⟨rfl, rfl⟩
    · simp only [St.apply, Function.update_of_ne hj] at h
      exact .inl h
  | wakeByRef w => rw [apply_wakeByRef] at h; exact .inl h
  | _ => exact .inl h

end History

/-! ## The invariant -/

section Invariant

variable {ι : Type} [DecidableEq ι] [Fintype ι]

/-- The senders are gone and everything was taken. -/
def Finished (s : St ι) : Prop := s.cnt .tx = 0 ∧ s.queue = []

/-- What the receivers have seen is true. -/
structure Told (s : St ι) : Prop where
  history : s.pushed = s.taken ++ s.queue
  notDone : ∀ w, (s.waker w).state ≠ .done
  sent : ∀ m ∈ s.sentOk, m ∈ s.pushed
  okSent : ∀ i c m, (s.pc i).result = some (c, .ok m) → c.side = .tx → m ∈ s.pushed
  saw : ∀ i, (s.pc i).sawClosed = true → s.cnt .tx = 0
  closed : ∀ i w, ((s.pc i).own = some w ∨ (s.pc i).ready = some w) →
    (s.waker w).state = .closed → s.cnt (s.waker w).side.other = 0
  ended : ∀ i c r, (s.pc i).result = some (c, r) → c.side = .rx → r.ends = true → Finished s
  returned : ∀ i c r, s.ret i = some (c, r) → c.side = .rx → r.ends = true → Finished s

variable {cfg : Cfg} {s t : St ι} {i : ι} {e : Eff} {pc' : Pc}

theorem Finished.go (hf : Finished s) (h : Held s) (hstep : PcStep cfg s i (s.pc i) e pc') :
    Finished ((s.apply i e).setPc i pc') := by
  refine ⟨by rw [setPc_cnt, apply_cnt]; exact hf.1, queue_apply_eq_nil hf.2 ?_⟩
  rintro m rfl
  exact h.cnt_ne_zero (h.side i .tx (side_of_push hstep)) hf.1

/-- A waker its agent relies on reads `Closed` only when the other side is gone. -/
theorem Told.closed_apply (hs : Told s) (h : Held s) (hm : Move cfg s (s.pc i) e pc') {j : ι}
    {w : Nat} (hj : (s.pc j).own = some w ∨ (s.pc j).ready = some w)
    (hkeep : j = i → ¬ (pc'.own = none ∧ pc'.ready = none))
    (hstate : ((s.apply i e).waker w).state = .closed) :
    s.cnt ((s.apply i e).waker w).side.other = 0 := by
  have hmine : w ∈ (s.pc j).mine := hj.elim Pc.own_mem_mine Pc.ready_mem_mine
  obtain ⟨hlt, howner, _⟩ := h.mine j w hmine
  rw [(apply_owner_side s i e hlt).2]
  have hturns := hm.turns (i := i) w
  rw [hstate] at hturns
  generalize hclosed : WakerState.closed = state at hturns
  cases hturns with
  | same => exact hs.closed j w hj hclosed.symm
  | closed x pops pops' closes rings' => rw [(h.pops i x w pops).2]; exact h.closing i x closes
  | abandon mine own' ready' =>
    have hji : j = i := howner.symm.trans (h.mine i w mine).2.1
    exact absurd ⟨own', ready'⟩ (hkeep hji)
  | _ => cases hclosed

/-- A step of a call. -/
theorem Told.go (hs : Told s) (h : Held s) (hstep : PcStep cfg s i (s.pc i) e pc') :
    Told ((s.apply i e).setPc i pc') := by
  have hm : Move cfg s (s.pc i) e pc' := move_of_pcStep hstep (h.fits i)
  have hfinished (hf : Finished s) : Finished ((s.apply i e).setPc i pc') := hf.go h hstep
  refine ⟨apply_history hs.history, hm.notDone hs.notDone, ?_, ?_, ?_, ?_, ?_, ?_⟩
  · intro m hmem
    rcases mem_sentOk_apply hmem with hold | ⟨c, rfl, hside⟩
    · exact mem_pushed_apply (hs.sent m hold)
    · exact mem_pushed_apply (hs.okSent i c m (result_of_ret hstep) hside)
  · intro j c m hr hside
    rw [go_pc] at hr
    split_ifs at hr with hj
    · subst hj
      cases results_of_pcStep hstep (h.fits j) hs.notDone hr with
      | same _ old => exact mem_pushed_apply (hs.okSent j c m old hside)
      | ok _ sent =>
        obtain rfl := sent hside
        exact List.mem_append_right _ (List.mem_singleton_self m)
      | goesOn _ _ notOk | sender _ _ notOk | ended _ _ _ _ notOk => exact absurd rfl (notOk m)
    · exact mem_pushed_apply (hs.okSent j c m hr hside)
  · intro j hsaw
    rw [setPc_cnt, apply_cnt]
    rw [go_pc] at hsaw
    split_ifs at hsaw with hj
    · subst hj
      rcases sawClosed_of_pcStep hstep hsaw with hold | hgone | ⟨w, hown, hclosed, hside⟩
      · exact hs.saw j hold
      · exact hgone
      -- a closed waker of a receiver: the senders have gone
      · have hw := (h.mine j w (Pc.own_mem_mine hown)).2.2
        rw [h.side j .rx hside, Option.some.injEq] at hw
        have hcnt := hs.closed j w (.inl hown) hclosed
        rwa [← hw] at hcnt
    · exact hs.saw j hsaw
  · intro j w hw hstate
    rw [setPc_cnt, apply_cnt]
    rw [go_pc] at hw
    split_ifs at hw with hj
    · subst hj
      -- the agent still holds a waker after the step
      have hkeep : j = j → ¬ (pc'.own = none ∧ pc'.ready = none) := by
        rintro - ⟨hown, hready⟩
        rw [hown, hready] at hw
        rcases hw with hw | hw <;> cases hw
      rcases hw with hown | hready
      · rcases hm.own (i := j) hown with hold | hold | ⟨_, hinit⟩
        · exact hs.closed_apply h hm (.inl hold) hkeep hstate
        · exact hs.closed_apply h hm (.inr hold) hkeep hstate
        · rw [setPc_waker, hinit] at hstate; cases hstate
      · have hinit := (hm.ready (i := j) hready).2.1
        rw [setPc_waker, hinit] at hstate; cases hstate
    · exact hs.closed_apply h hm hw (fun hji => absurd hji hj) hstate
  · intro j c r hr hside hends
    rw [go_pc] at hr
    split_ifs at hr with hj
    · subst hj
      cases results_of_pcStep hstep (h.fits j) hs.notDone hr with
      | same _ old => exact hfinished (hs.ended j c r old hside hends)
      | ok _ sent => cases hends
      | goesOn _ ends notOk => rw [ends] at hends; cases hends
      | sender _ side notOk => rw [side] at hside; cases hside
      | ended _ saw skip queue notOk => exact hfinished ⟨hs.saw j saw, queue⟩
    · exact hfinished (hs.ended j c r hr hside hends)
  · intro j c r hr hside hends
    rcases ret_apply hr with hold | ⟨rfl, rfl⟩
    · exact hfinished (hs.returned j c r hold hside hends)
    · exact hfinished (hs.ended j c r (result_of_ret hstep) hside hends)

/-! ## The starts and ends of calls -/

omit [Fintype ι] in
/-- An agent that goes on with no more than it had and has no result yet. -/
theorem Told.setPc (hs : Told s) (hown : pc'.own = none ∨ pc'.own = (s.pc i).own)
    (hready : pc'.ready = none) (hsaw : pc'.sawClosed = false)
    (hresult : ∀ c r, pc'.result = some (c, r) →
      (c.side = .tx → ∀ m, r ≠ .ok m) ∧ r.ends = false) : Told (s.setPc i pc') := by
  refine ⟨hs.history, hs.notDone, hs.sent, ?_, ?_, ?_, ?_, hs.returned⟩
  · intro j c m hr hside
    rw [setPc_pc] at hr
    split_ifs at hr with hj
    · subst hj
      exact absurd rfl ((hresult c _ hr).1 hside m)
    · exact hs.okSent j c m hr hside
  · intro j hj'
    rw [setPc_pc] at hj'
    split_ifs at hj' with hj
    · subst hj
      rw [hsaw] at hj'
      cases hj'
    · exact hs.saw j hj'
  · intro j w hw hstate
    rw [setPc_pc] at hw
    split_ifs at hw with hj
    · subst hj
      rw [hready] at hw
      rcases hw with hw | hw
      · rcases hown with hnone | hsame
        · rw [hnone] at hw; cases hw
        · exact hs.closed j w (.inl (hsame ▸ hw)) hstate
      · cases hw
    · exact hs.closed j w hw hstate
  · intro j c r hr hside hends
    rw [setPc_pc] at hr
    split_ifs at hr with hj
    · subst hj
      rw [(hresult c r hr).2] at hends
      cases hends
    · exact hs.ended j c r hr hside hends

omit [DecidableEq ι] [Fintype ι] in
theorem Told.countMsg (hs : Told s) (c : Call) : Told (s.countMsg c) := by
  unfold St.countMsg
  split_ifs
  · exact ⟨hs.history, hs.notDone, hs.sent, hs.okSent, hs.saw, hs.closed, hs.ended, hs.returned⟩
  · exact hs

omit [DecidableEq ι] [Fintype ι] in
/-- Handles come and go; a side that is gone stays gone. -/
theorem Told.setHandles (hs : Told s) {cnt : Side → Nat} {handle : ι → Option Side}
    (hgone : ∀ x, s.cnt x = 0 → cnt x = 0) : Told { s with cnt, handle } :=
  ⟨hs.history, hs.notDone, hs.sent, hs.okSent, fun i hi => hgone _ (hs.saw i hi),
    fun i w hw hstate => hgone _ (hs.closed i w hw hstate),
    fun i c r hr hside hends => (hs.ended i c r hr hside hends).imp_left (hgone _),
    fun i c r hr hside hends => (hs.returned i c r hr hside hends).imp_left (hgone _)⟩

omit [DecidableEq ι] [Fintype ι] in
theorem Told.setReg (hs : Told s) (x : Side) (r : RegistryMulti) : Told (s.setReg x r) :=
  ⟨hs.history, hs.notDone, hs.sent, hs.okSent, hs.saw, hs.closed, hs.ended, hs.returned⟩

theorem startPc_quiet (c : Call) : (startPc c).own = none ∧ (startPc c).ready = none ∧
    (startPc c).sawClosed = false ∧ (startPc c).result = none := by
  fun_cases startPc c <;> exact ⟨rfl, rfl, rfl, rfl⟩

/-- The start of a call. -/
theorem Told.call {a : Act ι} (hs : Told s) (h : Held s) (hcall : CallStep cfg s a t) : Told t := by
  have hgone (x : Side) (hx : s.cnt x = 0) : t.cnt x = 0 := gone_of_callStep h hcall hx
  cases hcall with
  | call i c pc handle msg =>
    obtain ⟨hown, hready, hsaw, hresult⟩ := startPc_quiet c
    refine (hs.countMsg c).setPc (.inl hown) hready hsaw fun c' r hr => ?_
    rw [hresult] at hr
    cases hr
  | poll i c c' w _ pc next =>
    have hpc : (s.countMsg c').pc = s.pc := by unfold St.countMsg; split_ifs <;> rfl
    refine (hs.countMsg c').setPc (.inr ?_) ?_ ?_ ?_
    · rw [hpc]
      cases next <;> rcases pc with pc | pc <;> rw [pc] <;> rfl
    · cases next <;> rfl
    · cases next <;> rfl
    · intro c'' r hr
      cases next <;> cases hr
  | dropFuture | dropSingle =>
    refine hs.setPc (.inl rfl) rfl rfl fun c' r hr => ?_
    cases hr
    exact ⟨fun _ => nofun, rfl⟩
  | dropHandle | clone => exact hs.setHandles hgone
  | dropLast i x _ pc handle alone goes =>
    have ht : Told (s.dropHandle x i) := hs.setHandles hgone
    cases goes with
    | multi | single | dummy => exact ht.setPc (.inl rfl) rfl rfl nofun
  | readTaken i m _ pc goes =>
    have hresult : ∀ c r, (Cont.retn (.trySelect false) none (.ok m)).result = some (c, r) →
        (c.side = .tx → ∀ m, r ≠ .ok m) ∧ r.ends = false := by
      intro c r hr
      cases hr
      exact ⟨nofun, rfl⟩
    cases goes with
    | dummy | fire => exact hs.setPc (.inl rfl) rfl rfl hresult
  | readToken | dropToken => exact hs.setPc (.inl rfl) rfl rfl nofun
  | regSelect | cancelSelect => exact hs.setReg _ _

omit [Fintype ι] in
theorem told_new (a b : ι) : Told (St.new a b) :=
  ⟨rfl, nofun, nofun, nofun, nofun, nofun, nofun, nofun⟩

/-- What the receivers have seen is true in every run. -/
theorem told_of_reach {ok : St ι → Act ι → Prop} (h : Reach (system cfg) ok s) :
    Held s ∧ Told s := by
  refine h.invariant (P := fun s => Held s ∧ Told s) ?_ ?_
  · rintro _ ⟨a, b, hab, rfl⟩
    exact ⟨held_new hab, told_new a b⟩
  · rintro s a t ⟨hh, hs⟩ _ hstep
    refine ⟨hh.step hstep, ?_⟩
    rcases step_cases hstep with ⟨i, choice, e, pc', rfl, hpc, rfl⟩ | hcall
    · exact hs.go hh hpc
    · exact hs.call hh hcall

end Invariant

/-! ## The result -/

section Result

variable {ι : Type} [DecidableEq ι] [Fintype ι]

/-- **A receiver that was told `Disconnected`, or given the null token, was told so after the last
sender had gone and every message that was sent had been taken out of the queue.** -/
theorem disconnected_after_last {cfg : Cfg} {s : St ι} (h : Reachable (system cfg) s) {i : ι}
    {c : Call} {r : Ret} (hret : s.ret i = some (c, r)) (hside : c.side = .rx)
    (hr : r = .disconnected ∨ r = .nullToken) :
    s.cnt .tx = 0 ∧ (∀ j, s.handle j ≠ some .tx) ∧ ∀ m ∈ s.sentOk, m ∈ s.taken := by
  obtain ⟨hh, hs⟩ := told_of_reach h
  have hends : r.ends = true := by rcases hr with rfl | rfl <;> rfl
  obtain ⟨hgone, hqueue⟩ := hs.returned i c r hret hside hends
  refine ⟨hgone, hh.handle_ne hgone, fun m hm => ?_⟩
  have hpushed := hs.sent m hm
  rwa [hs.history, hqueue, List.append_nil] at hpushed

end Result

/-- A sender sends one message and goes; the receiver takes it and is told `Disconnected`. -/
theorem disconnected_after_one :
    ∃ s : St (Fin 2), Reachable (system ⟨some 1, fun _ => .multi, (· == ·), true⟩) s ∧
      s.ret 1 = some (.recv false, .disconnected) ∧ s.sentOk = [0] ∧
      s.cnt .tx = 0 ∧ (∀ j, s.handle j ≠ some .tx) ∧ ∀ m ∈ s.sentOk, m ∈ s.taken := by
  have hnew : Reachable (system ⟨some 1, fun _ => .multi, (· == ·), true⟩) (St.new (0 : Fin 2) 1) :=
    .init ⟨0, 1, by decide, rfl⟩
  obtain ⟨s, hs, hret, hsent⟩ := hnew.exists_of_run
    [.call 0 (.send 0 false), .go 0 false, .go 0 false, .go 0 false, .go 0 false, .dropHandle 0,
      .go 0 false, .go 0 false, .go 0 false, .call 1 (.recv false), .go 1 false, .go 1 false,
      .go 1 false, .call 1 (.recv false), .go 1 false, .go 1 true, .go 1 false, .go 1 false,
      .go 1 false, .go 1 false, .go 1 false, .go 1 false]
    (fun s => s.ret 1 = some (.recv false, .disconnected) ∧ s.sentOk = [0])
    (by decide +kernel)
  exact ⟨s, hs, hret, hsent, disconnected_after_last hs hret rfl (.inl rfl)⟩

end Crossfire.Channel
