import Crossfire.Channel.Disconnect

/-!
# The results of a send

What a sending call returns follows its one successful `try_send`. A program counter of a send has a
result (`Pc.result`) only when there is nothing left to try, and it keeps that result until the call
returns (`result_of_stepPc`): `cancel_reuse_waker` returns a state number, and after a push that
number is `Done` whatever the waker says. A result `Ok` comes with the push and only with it
(`result_of_push`, `push_of_ok`). The other results are those of the call (`returns_of_stepPc`), and
no send of a flavor of the crate gets to an `unreachable!()` (`ne_panicked_of_stepPc`).
-/

set_option autoImplicit false

namespace Crossfire.Channel

open Lib.Interleaving Crossfire.Waker Crossfire.Registry

/-- The results a sending call can return. -/
def Call.returns : Call → Ret → Bool
  | .send _ _, .ok _ | .send _ _, .disconnected => true
  | .send _ deadline, .timeout => deadline
  | .trySend _, .ok _ | .trySend _, .full | .trySend _, .disconnected => true
  | .pollSend _ _ _, .ok _ | .pollSend _ _ _, .disconnected | .pollSend _ _ _, .pending => true
  | _, _ => false

/-- A send that is about to return `Ok`. -/
def Pc.isOk (pc : Pc) : Bool :=
  match pc.result with
  | some (_, .ok _) => true
  | _ => false

theorem Pc.call_of_result {pc : Pc} {c : Call} {r : Ret} (h : pc.result = some (c, r)) :
    pc.call = some c := by
  have hcont {k : Cont} (hk : k.result = some (c, r)) : k.call = some c := by
    cases k with
    | reuse c' w target => cases target <;> cases hk; rfl
    | _ => cases hk <;> rfl
  cases pc with
  | reuse c' w target => cases target <;> cases h; rfl
  | clear | clearLock | abandon | fire => exact hcont h
  | _ => cases h <;> rfl

section Steps

variable {ι : Type} [Fintype ι] {cfg : Cfg} {s : St ι} {i : ι} {choice : Bool} {e : Eff}
  {pc pc' : Pc} {x : Side} {c : Call} {k : Cont} {w m : Nat} {o : Option Nat} {r : Ret}

/-! ## The call goes on -/

/-- A step of a sender stays in its call, returns, or is an `unreachable!()`. -/
theorem stays_of_pcStep (h : PcStep cfg s i pc e pc') (hcall : pc.call = some c)
    (hside : c.side = .tx) :
    pc'.call = some c ∨ (∃ r, e = .ret c r ∧ pc' = .idle) ∨ pc' = .panicked := by
  cases h with
  | recv _ c' k m rest _ tries side queue goes | send _ c' k m _ tries side msg room goes =>
    rw [goes.call, tries.call_cont, ← tries.call]
    exact .inl hcall
  | sendGone | sinkGone | sendOpen | pollOpen | sinkFail | sendFail | tryFull | startFail
  | spinAgain | spinReset | spinRecas | spinReg | doubleCommit | doubleSkip | contended | lastFail
  | lastKeep | openFail | reset | recas | recasClosed | recasErr | recasKeep | recasSame
  | recasPending | recasStale | staleWoken | stale | reg | regNew | swap | commit | commitWoken
  | closedLast | closedGone | closedKeep | closedSpin | closedErr | congest | snooze | timeout
  | timeoutSingle | deadline | park | cancel | cancelled | clear | abandonOk | abandonRetry
  | keepPending | keep | tryLast | tryClosed => exact .inl hcall
  | closedSettle _ _ _ _ _ _ goes | congestNot _ _ _ goes | snoozeDone _ _ _ goes
  | snoozeWoken _ _ _ _ goes | state _ _ _ goes | abandonFire _ _ _ _ _ goes =>
    exact .inl (goes.call.trans hcall)
  | recasPanic | regDummy => exact .inr (.inr rfl)
  | reuseWoken | reuse => exact .inl (((Cont.call_pc _).trans (reused_call ..)).trans hcall)
  | reuseClear c' w target => exact .inl ((reused_call ..).trans hcall)
  | clearSkip | clearLock | abandonErr => exact .inl ((Cont.call_pc _).trans hcall)
  | fire x f k _ _ step => exact .inl ((fireStep_call step).trans hcall)
  | retn c' o r =>
    cases hcall
    exact .inr (.inl ⟨r, rfl, rfl⟩)
  | selectClosed | selectClaim | selectPeek | selectNone =>
    cases hcall
    cases hside
  | close => cases hcall

/-! ## The result comes with the push -/

theorem Tries.result_none {k : Ret → Cont} (h : Tries pc c k) : pc.result = none := by
  cases h <;> rfl

/-- A push is the last try of its call. -/
theorem result_of_push (h : PcStep cfg s i pc (.push m) pc') :
    ∃ c, pc.call = some c ∧ c.msg = some m ∧ pc.result = none ∧ pc'.result = some (c, .ok m) := by
  cases h with
  | send _ c k _ _ tries side msg room goes =>
    refine ⟨c, tries.call, msg, tries.result_none, ?_⟩
    rw [goes.result, tries.result_send msg]
  | fire x f k _ _ step => cases step
  | close x f _ _ step => cases step

/-- An `Ok` of a sender comes with a push. -/
theorem push_of_ok (h : PcStep cfg s i pc e pc') (hfits : pc.Fits)
    (hdone : ∀ v, (s.waker v).state ≠ .done) (hside : c.side = .tx) (hnone : pc.result = none)
    (hr : pc'.result = some (c, .ok m)) : e = .push m := by
  cases results_of_pcStep h hfits hdone hr with
  | same _ old => rw [hnone] at old; cases old
  | ok _ sent => exact sent hside
  | goesOn _ ends notOk | sender _ side notOk | ended _ saw skip queue notOk =>
    exact absurd rfl (notOk m)

/-- After a push `cancel_reuse_waker` returns `Done`, woken or closed as the waker may be. -/
theorem result_of_reuse {target : WakerState} (hdone : (s.waker w).state ≠ .done)
    (h : stepPc cfg s i choice (.reuse c w target) = some (e, pc'))
    (hr : (Pc.reuse c w target).result = some (c, r)) : pc'.result = some (c, r) := by
  have htarget : target = .done := by
    cases target <;> first | rfl | cases hr
  subst htarget
  cases hr
  have hmax : (s.waker w).state.toNat < WakerState.done.toNat := by
    cases hst : (s.waker w).state <;> first | exact absurd hst hdone | decide
  simp only [stepPc, hmax, if_true] at h
  split_ifs at h <;> cases h <;> rfl

/-- A result stays until the call returns it. -/
theorem result_of_stepPc (h : stepPc cfg s i choice pc = some (e, pc'))
    (hdone : ∀ v, (s.waker v).state ≠ .done) (hr : pc.result = some (c, r)) :
    e = .ret c r ∨ pc'.result = some (c, r) := by
  cases pcStep_of_stepPc h with
  | recv _ c' k m rest _ tries side queue goes | send _ c' k m _ tries side msg room goes =>
    rw [tries.result_none] at hr
    cases hr
  | retn | keepPending | keep => cases hr; exact .inl rfl
  | cancel | cancelled | clear | abandonOk | abandonRetry => exact .inr hr
  | clearSkip | clearLock | abandonErr => exact .inr ((Cont.result_pc _).trans hr)
  | abandonFire x w expected k _ goes => exact .inr (goes.result.trans hr)
  | fire x f k _ _ step => exact .inr ((fireStep_result step).trans hr)
  | reuseWoken c' w target | reuseClear c' w target | reuse c' w target =>
    have hc : c' = c := by cases target <;> cases hr; rfl
    subst hc
    exact .inr (result_of_reuse (hdone w) h hr)
  | _ => cases hr

/-! ## Which results a call returns -/

/-- The call whose deadline is checked next. -/
def Pc.checks : Pc → Option Call
  | .deadline c _ => some c
  | _ => none

@[simp] theorem Cont.checks_pc (k : Cont) : k.pc.checks = none := by cases k <;> rfl

theorem checks_parkPc {c' : Call} (h : (parkPc c w).checks = some c') : c'.hasDeadline = true := by
  unfold parkPc at h
  split_ifs at h with hd
  · cases h
    exact hd
  · cases h

theorem checks_waitPc {c' : Call} (h : (waitPc cfg c w).checks = some c') :
    c'.hasDeadline = true := by
  unfold waitPc at h
  split at h
  · cases h
  · exact checks_parkPc h

variable {state : WakerState}

theorem checks_settle {c' : Call}
    (h : (settle cfg c w state).checks = some c') : c'.hasDeadline = true := by
  unfold settle at h
  split at h
  · split at h <;> split at h <;> cases h
  · exact checks_waitPc h

/-- Only a call with a deadline checks it. -/
theorem checks_closedPc {c' : Call} {gone : Bool}
    (h : (closedPc cfg c w state gone).checks = some c') : c'.hasDeadline = true := by
  unfold closedPc at h
  split at h
  · split_ifs at h <;> cases h
  · split_ifs at h <;> cases h
  · split_ifs at h
    · cases h
    · exact checks_settle h
  · split_ifs at h
    · cases h
    · exact checks_settle h

theorem Fires.checks (h : Fires cfg x k pc') : pc'.checks = none := by
  cases h with
  | dummy kind => exact Cont.checks_pc k
  | fire kind => rfl

theorem fireStep_checks {f : FirePc} (h : FireStep cfg s x k f e pc') : pc'.checks = none := by
  cases h with
  | skip _ _ _ _ _ _ goes | wakeByRef _ _ _ _ goes =>
    cases goes <;> first | exact Cont.checks_pc k | rfl
  | _ => first | exact Cont.checks_pc k | rfl

/-- Only a call with a deadline gets to check it. -/
theorem checks_of_stepPc (h : stepPc cfg s i choice pc = some (e, pc'))
    (hc : pc'.checks = some c) : c.hasDeadline = true := by
  have hstep := pcStep_of_stepPc h
  cases hstep with
  | closedSettle => cases h; exact checks_closedPc hc
  | state => cases h; exact checks_settle hc
  | congestNot =>
    simp only [stepPc] at h
    split_ifs at h
    · cases h; exact checks_parkPc hc
    · cases h; cases hc
  | snoozeWoken c' w _ state goes =>
    simp only [stepPc, state, if_true] at h
    cases h
    exact checks_settle hc
  | snoozeDone =>
    simp only [stepPc] at h
    split_ifs at h
    · cases h; exact checks_settle hc
    · cases h; exact checks_parkPc hc
    · cases h; cases hc
  | recv _ c' k m rest _ tries side queue goes | send _ c' k m _ tries side msg room goes =>
    rw [goes.checks] at hc
    cases hc
  | abandonFire x w expected k _ goes => rw [goes.checks] at hc; cases hc
  | fire x f k _ _ step => rw [fireStep_checks step] at hc; cases hc
  | close x f _ _ step => cases step <;> cases hc
  | reuseWoken | reuse | clearSkip | clearLock | abandonErr =>
    rw [Cont.checks_pc] at hc
    cases hc
  | _ => cases hc

theorem Call.returns_disconnected (h : c.side = .tx) : c.returns .disconnected = true := by
  cases c <;> first | rfl | cases h

theorem Call.returns_ok (h : c.side = .tx) : c.returns (.ok m) = true := by
  cases c <;> first | rfl | cases h

theorem Call.returns_pending (h : c.side = .tx) (hregisters : c.registers = true)
    (hasync : c.isBlocking = false) : c.returns .pending = true := by
  cases c with
  | pollSend m sink k => rfl
  | send m d => cases hasync
  | trySend m => cases hregisters
  | _ => cases h

theorem Call.returns_timeout (h : c.side = .tx) (hdeadline : c.hasDeadline = true) :
    c.returns .timeout = true := by
  cases c <;> first | exact hdeadline | cases h

/-- Only `try_send` returns `Full`. -/
theorem returns_full (h : stepPc cfg s i choice (.sendFirst c o) = some (.skip, .retn c o .full))
    (hside : c.side = .tx) : c.returns .full = true := by
  have hpush {c' : Call} {m : Nat} {p : Eff × Ret} (hc : c'.side = .tx) (hm : c'.msg = some m)
      (hp : attempt cfg s c' = some p) : p.1 ≠ .skip := by
    simp only [attempt, hc, hm] at hp
    split_ifs at hp
    cases hp
    nofun
  cases c with
  | trySend m => rfl
  | send m d =>
    simp only [stepPc] at h
    cases hatt : attempt cfg s (.send m d) with
    | none => rw [hatt] at h; cases h
    | some p =>
      rw [hatt] at h
      exact absurd (congrArg Prod.fst (Option.some.inj h)) (hpush rfl rfl hatt)
  | pollSend m sink k =>
    simp only [stepPc] at h
    cases hatt : attempt cfg s (.pollSend m sink k) with
    | none => rw [hatt] at h; cases h
    | some p =>
      rw [hatt] at h
      cases o <;> exact absurd (congrArg Prod.fst (Option.some.inj h)) (hpush rfl rfl hatt)
  | _ => cases hside

/-- A send ends with one of the results of its call. -/
theorem returns_of_stepPc (h : stepPc cfg s i choice pc = some (e, pc')) (hfits : pc.Fits)
    (hchecks : ∀ c, pc.checks = some c → c.hasDeadline = true) (hside : pc.side = some .tx)
    (hnone : pc.result = none) (hr : pc'.result = some (c, r)) : c.returns r = true := by
  have hsettles {c' : Call} {v : Nat} {state : WakerState} (hc : c'.side = .tx)
      (goes : Settles c' v state pc') : c.returns r = true := by
    cases goes with
    | err woken side => cases hr; exact Call.returns_disconnected hc
    | sleep _ notWoken goes => rw [goes.result] at hr; cases hr
    | _ => cases hr
  cases pcStep_of_stepPc h with
  | recv _ c' k m rest _ tries side queue goes =>
    rw [tries.side, side] at hside
    cases hside
  | send _ c' k m _ tries side msg room goes =>
    rw [goes.result, tries.result_send msg] at hr
    cases hr
    exact Call.returns_ok side
  | sendGone | sinkGone => cases hr; exact Call.returns_disconnected hfits.1
  | tryFull c' o => cases hr; exact returns_full h hfits.1
  | recasErr c' w state side | recasKeep c' w state side | closedErr c' w state here side =>
    cases hr
    exact Call.returns_disconnected side
  | recasPending c' w state side => cases hr; exact Call.returns_pending side hfits.1 hfits.2
  | closedKeep c' w state here async =>
    cases hr
    exact Call.returns_pending (Option.some.inj hside) hfits async
  | closedGone => cases hr; exact Call.returns_disconnected (Option.some.inj hside)
  | closedSettle _ _ _ _ _ _ goes | snoozeWoken _ _ _ _ goes | state _ _ _ goes =>
    exact hsettles (Option.some.inj hside) goes
  | congestNot c' w _ goes | snoozeDone c' w _ goes => rw [goes.result] at hr; cases hr
  | timeout | timeoutSingle =>
    cases hr
    exact Call.returns_timeout (Option.some.inj hside) (hchecks c rfl)
  | reuseWoken | reuse =>
    rw [Cont.result_pc] at hr
    obtain ⟨rfl, ⟨-, rfl⟩ | rfl⟩ := reused_result hr
    · exact Call.returns_ok hfits.2.1
    · exact Call.returns_disconnected hfits.2.1
  | reuseClear c' w target =>
    obtain ⟨rfl, ⟨-, rfl⟩ | rfl⟩ := reused_result hr
    · exact Call.returns_ok hfits.2.1
    · exact Call.returns_disconnected hfits.2.1
  | clear | abandonOk | abandonRetry =>
    cases hnone.symm.trans hr
  | clearSkip | clearLock | abandonErr =>
    rw [Cont.result_pc, show Cont.result _ = none from hnone] at hr
    cases hr
  | abandonFire x w expected k _ goes =>
    rw [goes.result, show k.result = none from hnone] at hr
    cases hr
  | fire x f k _ _ step =>
    rw [fireStep_result step, show k.result = none from hnone] at hr
    cases hr
  | lastFail | lastKeep =>
    have hrx : Call.side _ = .rx := hfits
    rw [Option.some.inj hside] at hrx
    cases hrx
  | cancel | cancelled => cases hnone
  | openFail | selectNone | close => cases hside
  | _ => cases hr

/-- `Pending` is returned with the waker kept. -/
theorem pending_of_pcStep (h : PcStep cfg s i pc e pc') (hnone : pc.result = none)
    (hr : pc'.result = some (c, .pending)) : ∃ w, pc' = .keep c w .pending := by
  have hsettles {c' : Call} {v : Nat} {state : WakerState} (goes : Settles c' v state pc') :
      ∃ w, pc' = .keep c w .pending := by
    cases goes with
    | sleep _ notWoken goes => rw [goes.result] at hr; cases hr
    | _ => cases hr
  have hreused {c' : Call} {o : Option Nat} {state : WakerState} :
      (reused c' o state).result ≠ some (c, .pending) := by
    cases state <;> nofun
  cases h with
  | recasPending c' w | closedKeep c' w => cases hr; exact ⟨w, rfl⟩
  | recv _ c' k m rest _ tries side queue goes =>
    rw [goes.result, tries.result_recv side] at hr
    cases hr
  | send _ c' k m _ tries side msg room goes =>
    rw [goes.result, tries.result_send msg] at hr
    cases hr
  | closedSettle _ _ _ _ _ _ goes | snoozeWoken _ _ _ _ goes | state _ _ _ goes =>
    exact hsettles goes
  | congestNot c' w _ goes | snoozeDone c' w _ goes => rw [goes.result] at hr; cases hr
  | reuseWoken | reuse =>
    rw [Cont.result_pc] at hr
    exact absurd hr hreused
  | reuseClear => exact absurd hr hreused
  | clear | abandonOk | abandonRetry => cases hnone.symm.trans hr
  | clearSkip | clearLock | abandonErr =>
    rw [Cont.result_pc, show Cont.result _ = none from hnone] at hr
    cases hr
  | abandonFire x w expected k _ goes =>
    rw [goes.result, show k.result = none from hnone] at hr
    cases hr
  | fire x f k _ _ step =>
    rw [fireStep_result step, show k.result = none from hnone] at hr
    cases hr
  | cancel | cancelled => cases hnone
  | selectNone final closed => cases closed <;> cases hr
  | close x f _ _ step => cases step <;> cases hr
  | _ => cases hr

/-- The two ways to return. -/
theorem cases_of_ret (h : PcStep cfg s i pc (.ret c r) pc') :
    (∃ o, pc = .retn c o r ∧ pc' = .idle) ∨
      ∃ w, pc = .keep c w r ∧
        (r = .pending ∧ pc' = .pending c w ∨ r ≠ .pending ∧ pc' = .kept c w) := by
  cases h with
  | retn _ o _ => exact .inl ⟨o, rfl, rfl⟩
  | keepPending _ w => exact .inr ⟨w, rfl, .inl ⟨rfl, rfl⟩⟩
  | keep _ w _ hr => exact .inr ⟨w, rfl, .inr ⟨hr, rfl⟩⟩
  | fire x f k _ _ step => cases step
  | close x f _ _ step => cases step

/-! ## The way out -/

/-- What is left to do after `abandon`. -/
def Pc.leaves : Pc → Option Cont
  | .retn c o r => some (.retn c o r)
  | .clear _ _ _ k | .clearLock _ _ _ k | .abandon _ _ _ k | .fire _ _ k => some k
  | _ => none

/-- A call on its way out returns what it has. -/
theorem leaves_of_pcStep (h : PcStep cfg s i pc e pc') (hl : pc.leaves = some (.retn c o r)) :
    (e = .ret c r ∧ pc' = .idle) ∨
      pc'.leaves = some (.retn c o r) ∧ (∀ m, e ≠ .push m) ∧ ∀ c r, e ≠ .ret c r := by
  cases h with
  | recv _ c' k m rest _ tries side queue goes | send _ c' k m _ tries side msg room goes =>
    cases tries <;> cases hl
  | clear | abandonOk | abandonRetry => exact .inr ⟨hl, nofun, nofun⟩
  | clearSkip | clearLock | abandonErr => cases hl; exact .inr ⟨rfl, nofun, nofun⟩
  | abandonFire x w expected k _ goes =>
    cases hl
    cases goes <;> exact .inr ⟨rfl, nofun, nofun⟩
  | fire x f k _ _ step =>
    cases hl
    cases step with
    | skip _ _ _ _ _ _ goes | wakeByRef _ _ _ _ goes =>
      cases goes <;> exact .inr ⟨rfl, nofun, nofun⟩
    | _ => exact .inr ⟨rfl, nofun, nofun⟩
  | retn => cases hl; exact .inl ⟨rfl, rfl⟩
  | _ => cases hl

theorem Pc.result_of_leaves (h : pc.leaves = some (.retn c o r)) : pc.result = some (c, r) := by
  cases pc with
  | retn | clear | clearLock | abandon | fire => cases h; rfl
  | _ => cases h

/-! ## No `unreachable!()` -/

/-- The call goes on to a registration. -/
def Cont.enters : Cont → Bool
  | .reg _ _ => true
  | _ => false

/-- A sender on its way to register a waker. -/
def Pc.enters : Pc → Bool
  | .reset _ _ | .recas _ _ | .stale _ _ | .reg _ _ _ => true
  | .clear _ _ _ k | .clearLock _ _ _ k | .abandon _ _ _ k | .fire _ _ k => k.enters
  | _ => false

@[simp] theorem Cont.enters_pc (k : Cont) : k.pc.enters = k.enters := by cases k <;> rfl

theorem Fires.enters (h : Fires cfg x k pc') : pc'.enters = k.enters := by
  cases h with
  | dummy kind => exact Cont.enters_pc k
  | fire kind => rfl

theorem Tries.enters {k : Ret → Cont} (h : Tries pc c k) : (k r).enters = false := by
  cases h <;> rfl

theorem fireStep_enters {f : FirePc} (h : FireStep cfg s x k f e pc') :
    pc'.enters = k.enters := by
  cases h with
  | skip _ _ _ _ _ _ goes | wakeByRef _ _ _ _ goes =>
    cases goes <;> first | exact Cont.enters_pc k | rfl
  | _ => first | exact Cont.enters_pc k | rfl

theorem Settles.enters (h : Settles c w state pc') : pc'.enters = false := by
  cases h with
  | sleep _ notWoken goes => cases goes <;> rfl
  | _ => rfl

theorem reused_enters (o : Option Nat) (state : WakerState) :
    (reused c o state).enters = false := by
  cases state <;> rfl

/-- A sender registers a waker only after a failed try. -/
theorem enters_of_pcStep (h : PcStep cfg s i pc e pc') (hfits : pc.Fits)
    (hside : pc.side = some .tx) (hentered : pc'.enters = true) :
    pc.enters = true ∨ ∃ c, c.side = .tx ∧ c.registers = true ∧ attempt cfg s c = none := by
  cases h with
  | recv _ c' k m rest _ tries side queue goes | send _ c' k m _ tries side msg room goes =>
    rw [goes.enters, tries.enters] at hentered
    cases hentered
  | spinReset c' w fail | spinRecas c' w fail | spinReg c' o fail =>
    exact .inr ⟨c', Option.some.inj hside, hfits, fail⟩
  | reset | recas | staleWoken | stale | recasStale => exact .inl rfl
  | clear | abandonOk | abandonRetry => exact .inl hentered
  | clearSkip | clearLock | abandonErr =>
    rw [Cont.enters_pc] at hentered
    exact .inl hentered
  | abandonFire x w expected k _ goes =>
    rw [goes.enters] at hentered
    exact .inl hentered
  | fire x f k _ _ step =>
    rw [fireStep_enters step] at hentered
    exact .inl hentered
  | closedSettle _ _ _ _ _ _ goes | snoozeWoken _ _ _ _ goes | state _ _ _ goes =>
    rw [goes.enters] at hentered
    cases hentered
  | congestNot c' w _ goes | snoozeDone c' w _ goes => cases goes <;> cases hentered
  | reuseWoken | reuse =>
    rw [Cont.enters_pc, reused_enters] at hentered
    cases hentered
  | reuseClear c' w target =>
    rw [show Pc.enters (.clear _ _ _ _) = _ from reused_enters none target] at hentered
    cases hentered
  | close => cases hside
  | _ => cases hentered

omit [Fintype ι] in
/-- `try_send` of an unbounded channel succeeds. -/
theorem attempt_ne_none (hcap : cfg.cap = none) (hside : c.side = .tx) :
    attempt cfg s c ≠ none := by
  have hroom : isFull cfg s = false := by simp only [isFull, hcap]
  cases c with
  | send m d | pollSend m sink k | trySend m => simp [attempt, Call.side, Call.msg, hroom]
  | _ => cases hside

/-- A sender whose registry is a `RegistryDummy` does not register. -/
theorem enters_eq_false (hcfg : cfg.kind .tx = .dummy → cfg.cap = none)
    (h : PcStep cfg s i pc e pc') (hfits : pc.Fits) (hside : pc.side = some .tx)
    (hkind : cfg.kind .tx = .dummy) (henters : pc.enters = false) : pc'.enters = false := by
  by_contra hentered
  rw [Bool.not_eq_false] at hentered
  rcases enters_of_pcStep h hfits hside hentered with hold | ⟨c, hc, -, hfail⟩
  · rw [henters] at hold
    cases hold
  · exact attempt_ne_none (hcfg hkind) hc hfail

/-- A sender does not get to an `unreachable!()` or to the panic of `_reg_waker_async`. -/
theorem ne_panicked_of_pcStep (h : PcStep cfg s i pc e pc')
    (hdone : ∀ v, (s.waker v).state ≠ .done) (hside : pc.side = some .tx)
    (henters : cfg.kind .tx = .dummy → pc.enters = false) : pc' ≠ .panicked := by
  have hcont (k : Cont) : k.pc ≠ .panicked := by cases k <;> nofun
  have hfires {x : Side} {k : Cont} (goes : Fires cfg x k pc') : pc' ≠ .panicked := by
    cases goes with
    | dummy kind => exact hcont k
    | fire kind => nofun
  cases h with
  | recv _ _ _ _ _ _ _ _ _ goes | send _ _ _ _ _ _ _ _ _ goes | abandonFire _ _ _ _ _ goes =>
    exact hfires goes
  | recasPanic c' w state => exact absurd state (hdone w)
  | regDummy c' o fresh kind =>
    rw [show c'.side = .tx from Option.some.inj hside] at kind
    cases henters kind
  | reuseWoken | reuse | clearSkip | clearLock | abandonErr => exact hcont _
  | fire x f k _ _ step =>
    cases step with
    | skip _ _ _ _ _ _ goes | wakeByRef _ _ _ _ goes => cases goes <;> first | exact hcont _ | nofun
    | _ => first | exact hcont _ | nofun
  | closedSettle _ _ _ _ _ _ goes | snoozeWoken _ _ _ _ goes | state _ _ _ goes =>
    cases goes with
    | sleep _ notWoken goes => cases goes <;> nofun
    | _ => nofun
  | congestNot c' w _ goes | snoozeDone c' w _ goes => cases goes <;> nofun
  | close => cases hside
  | _ => nofun

end Steps

end Crossfire.Channel
