import Crossfire.Channel.Numbers
import Crossfire.Channel.Sends
import Crossfire.Channel.Single

/-!
# Blocking calls without a deadline

The runs in which any number of agents make `send` and `recv` calls without a deadline on a channel
with a `RegistryMulti` on both sides, and no handle is dropped. In such a run no waker is closed and
no registry is, a flag byte says what its queue says, and a waker that is `Waiting` has an agent
that is going to look at it again (`Plain`).
-/

set_option autoImplicit false

namespace Crossfire.Channel

open Lib.Interleaving Crossfire.Waker Crossfire.Registry Function

/-- A blocking call without a deadline. -/
def Call.isPlain (c : Call) : Bool := c.isBlocking && !c.hasDeadline

theorem Call.isBlocking_of_isPlain {c : Call} (h : c.isPlain = true) : c.isBlocking = true :=
  (Bool.and_eq_true_iff.mp h).1

theorem Call.hasDeadline_of_isPlain {c : Call} (h : c.isPlain = true) : c.hasDeadline = false := by
  have := (Bool.and_eq_true_iff.mp h).2
  simpa using this

/-- Where an agent can be in such a run. -/
def Pc.Plain : Pc → Prop
  | .deadline _ _ | .abandon _ _ _ _ | .close _ _ => False
  | .closed _ _ seen => seen ≠ .closed ∧ seen ≠ .done
  | .fire _ (.firstLock flag) _ => flag.waker = true
  | _ => True

/-- The registered waker of an agent that looks at it again before it does anything else. -/
def Pc.awaits : Pc → Option Nat
  | .closed _ w _ | .congest _ w | .snooze _ w | .deadline _ w | .park _ w | .state _ w => some w
  | _ => none

/-- The waker an agent is about to store `Woken` in. -/
def Pc.stores : Pc → Option Nat
  | .fire _ (.wake w .store _) _ => some w
  | _ => none

theorem Pc.own_of_awaits {pc : Pc} {w : Nat} (h : pc.awaits = some w) : pc.own = some w := by
  cases pc <;> first | exact h | cases h

theorem Pc.pops_of_stores {pc : Pc} {w : Nat} (h : pc.stores = some w) :
    ∃ x, pc.pops = some (x, w) := by
  unfold Pc.stores at h
  split at h
  · next x v rest k =>
      cases h
      exact ⟨x, rfl⟩
  · cases h

theorem Cont.plain_pc (k : Cont) : k.pc.Plain := by cases k <;> trivial

theorem Cont.stores_pc (k : Cont) : k.pc.stores = none := by cases k <;> rfl

section Steps

variable {ι : Type} [Fintype ι] {cfg : Cfg} {s : St ι} {i : ι} {choice : Bool} {e : Eff}
  {pc pc' : Pc} {x : Side} {c : Call} {k : Cont} {v w : Nat}

theorem Fires.plain (h : Fires cfg x k pc') : pc'.Plain := by
  cases h with
  | dummy => exact k.plain_pc
  | fire => trivial

theorem Sleeps.plain (h : Sleeps c w pc') (hchecks : pc'.checks = none) : pc'.Plain := by
  cases h with
  | deadline => cases hchecks
  | congest | park => trivial

variable {state : WakerState}

theorem Settles.plain (h : Settles c w state pc') (hchecks : pc'.checks = none) : pc'.Plain := by
  cases h with
  | sleep _ _ goes => exact goes.plain hchecks
  | spin | last | err => trivial

theorem Wakes.plain {rest : Rest} {result : WakeResult} (h : Wakes x w k rest result pc') :
    pc'.Plain := by
  cases h with
  | leave => exact k.plain_pc
  | again | seqCheck => trivial

/-- A `fire` without `Select` stays plain. -/
theorem fireStep_plain {f : FirePc} (h : FireStep cfg s x k f e pc')
    (hselect : (s.reg x).state.select = false) : pc'.Plain := by
  cases h with
  | skip _ _ _ _ _ _ goes | wakeByRef _ _ _ _ goes => exact goes.plain
  | first kind nonempty =>
    -- the flag byte has no other bit
    show (s.reg x).state.waker = true
    cases hstate : (s.reg x).state with
    | mk select waker =>
      rw [hstate] at hselect nonempty
      cases hselect
      cases waker with
      | true => rfl
      | false => exact absurd rfl nonempty
  | _ => first | exact k.plain_pc | trivial

theorem Fires.stores (h : Fires cfg x k pc') : pc'.stores = none := by
  cases h with
  | dummy => exact k.stores_pc
  | fire => rfl

theorem Sleeps.stores (h : Sleeps c w pc') : pc'.stores = none := by cases h <;> rfl

theorem Settles.stores (h : Settles c w state pc') : pc'.stores = none := by
  cases h with
  | sleep _ _ goes => exact goes.stores
  | spin | last | err => rfl

theorem Wakes.stores {rest : Rest} {result : WakeResult} (h : Wakes x w k rest result pc') :
    pc'.stores = none := by
  cases h with
  | leave => exact k.stores_pc
  | again | seqCheck => rfl

/-- `fire` stores only over `Waiting`. -/
theorem fireStep_stores {f : FirePc} (h : FireStep cfg s x k f e pc') (hw : pc'.stores = some w) :
    e = .setState w (s.waker w).state ∧ (s.waker w).state = .waiting := by
  cases h with
  | toStore v _ rest _ waiting =>
    cases hw
    exact ⟨rfl, waiting⟩
  | skip _ _ _ _ _ _ goes | wakeByRef _ _ _ _ goes =>
    rw [goes.stores] at hw
    cases hw
  | _ => first | cases hw | (rw [k.stores_pc] at hw; cases hw)

/-- `wake` stores `Woken` in a waker in which it has seen `Waiting`. -/
theorem stores_of_pcStep (h : PcStep cfg s i pc e pc') (hw : pc'.stores = some w) :
    e = .setState w (s.waker w).state ∧ (s.waker w).state = .waiting := by
  have hnone (hpc' : pc'.stores = none) :
      e = .setState w (s.waker w).state ∧ (s.waker w).state = .waiting := by
    rw [hpc'] at hw
    cases hw
  cases h with
  | recv _ _ _ _ _ _ _ _ _ goes | send _ _ _ _ _ _ _ _ _ goes | closedSettle _ _ _ _ _ _ goes
  | congestNot _ _ _ goes | snoozeDone _ _ _ goes | snoozeWoken _ _ _ _ goes | state _ _ _ goes
  | abandonFire _ _ _ _ _ goes => exact hnone goes.stores
  | reuseWoken | reuse | clearSkip | clearLock | abandonErr => exact hnone (Cont.stores_pc _)
  | fire x f k _ _ step => exact fireStep_stores step hw
  | close x f _ _ step => cases step <;> exact hnone rfl
  | _ => exact hnone rfl

/-- The states that an agent gives to a waker. -/
inductive Sets (s : St ι) (v : Nat) : Pc → WakerState → Pc → Prop
  | same (pc pc' : Pc) : Sets s v pc (s.waker v).state pc'
  | reset (c : Call) (pc' : Pc) : Sets s v (.reset c v) .init pc'
  | commit (c : Call) (init : (s.waker v).state = .init) :
      Sets s v (.commit c v) .waiting (.closed c v .waiting)
  | store (x : Side) (rest : Rest) (k : Cont) :
      Sets s v (.fire x (.wake v .store rest) k) .woken
        (.fire x (.wake v (.wakeByRef .woken) rest) k)
  | cas (x : Side) (rest : Rest) (k : Cont) (init : (s.waker v).state = .init) :
      Sets s v (.fire x (.wake v .cas rest) k) .woken
        (.fire x (.wake v (.wakeByRef .next) rest) k)

/-- Which states a step sets. -/
theorem sets_of_pcStep (h : PcStep cfg s i pc (.setState v state) pc')
    (hfits : pc.Fits) (hcalls : pc.Blocking) (hplain : pc.Plain) : Sets s v pc state pc' := by
  have hasync {c : Call} (hcall : pc.call = some c) (hc : c.isBlocking = false) : False := by
    rw [hcalls c hcall] at hc
    cases hc
  cases h with
  | reset c => exact .reset c _
  | recas c => exact (hasync rfl hfits.2).elim
  | commit c =>
    cases hst : (s.waker v).state with
    | init => exact .commit c hst
    | _ =>
      simp only [commitWaiting]
      rw [← hst]
      exact .same _ _
  | commitWoken c _ state async => exact (hasync rfl async).elim
  | abandonOk | abandonFire | abandonErr | abandonRetry | close => exact hplain.elim
  | fire x f k _ _ step =>
    cases step with
    | skip | toStore | toCas => exact .same _ _
    | store _ rest => exact .store x rest k
    | cas _ rest init => exact .cas x rest k init

theorem parkPc_awaits (c : Call) (w : Nat) : (parkPc c w).awaits = some w := by
  unfold parkPc
  split_ifs <;> rfl

theorem waitPc_awaits (c : Call) (w : Nat) : (waitPc cfg c w).awaits = some w := by
  unfold waitPc
  split
  · rfl
  · exact parkPc_awaits _ _

/-- A waiter that reads a waker that is not closed. -/
theorem settle_cases (cfg : Cfg) (c : Call) (w : Nat) (hstate : state ≠ .closed ∧ state ≠ .done) :
    (settle cfg c w state).awaits = some w ∨
      state.isWoken = true ∧ settle cfg c w state = .spin c (some w) := by
  cases state with
  | init | waiting => exact .inl (waitPc_awaits c w)
  | woken => cases c <;> exact .inr ⟨rfl, rfl⟩
  | closed => exact absurd rfl hstate.1
  | done => exact absurd rfl hstate.2

theorem closedPc_of_isBlocking (hc : c.isBlocking = true) :
    closedPc cfg c w state false = settle cfg c w state := by
  cases c <;> first | rfl | cases hc

theorem step_go [DecidableEq ι] {t : St ι} (h : step cfg s (.go i choice) = some t) :
    ∃ e pc', stepPc cfg s i choice (s.pc i) = some (e, pc') ∧ t = (s.apply i e).setPc i pc' := by
  simp only [step, Option.map_eq_some_iff] at h
  obtain ⟨⟨e, pc'⟩, hstep, rfl⟩ := h
  exact ⟨e, pc', hstep, rfl⟩

end Steps

/-! ## The invariant -/

/-- A registry in a run without selectors and without `close`. -/
structure Tidy (r : RegistryMulti) : Prop where
  mirrors : r.Mirrors
  select : r.state.select = false
  selectors : r.selectors = []

theorem tidy_new : Tidy .new := ⟨rfl, rfl, rfl⟩

variable {r : RegistryMulti}

/-- A pop keeps the registry tidy. -/
theorem Tidy.popped (h : Tidy r) (rest : List Nat) : Tidy (r.popped rest) := by
  refine ⟨h.mirrors.popped, ?_, ?_⟩
  · unfold RegistryMulti.popped
    split_ifs
    · exact h.select
    · rw [RegistryMulti.checkSelect, h.selectors]
      rfl
    · exact h.select
  · unfold RegistryMulti.popped
    split_ifs <;> exact h.selectors

theorem Tidy.popFirst (h : Tidy r) (alive : Nat → Bool) (flag : Flags) :
    Tidy (r.popFirst alive flag).2 := by
  unfold RegistryMulti.popFirst
  split_ifs
  · split
    · exact h.popped _
    · exact h.popped _
  · exact h

theorem Tidy.regWaker (h : Tidy r) (w : Nat) : Tidy (r.regWaker w) := by
  refine ⟨h.mirrors.regWaker w, ?_, h.selectors⟩
  simp only [RegistryMulti.regWaker, RegistryMulti.checkSelect, h.selectors]
  split_ifs
  · rfl
  · exact h.select

section Invariant

variable {ι : Type}

/-- Only plain calls, with both sides open. -/
structure Plain (s : St ι) : Prop where
  calls : ∀ i c, (s.pc i).call = some c → c.isPlain = true
  pcs : ∀ i, (s.pc i).Plain
  here : ∀ x, s.cnt x ≠ 0
  tidy : ∀ x, Tidy (s.reg x)
  states : ∀ w, (s.waker w).state ≠ .closed ∧ (s.waker w).state ≠ .done
  /-- A waker that waits has an agent that will look at it. -/
  waiting : ∀ w, (s.waker w).state = .waiting → ∃ i, (s.pc i).awaits = some w
  /-- `wake` stores `Woken` only in a waker that waits. -/
  stores : ∀ i w, (s.pc i).stores = some w → (s.waker w).state = .waiting

theorem Plain.blocking {s : St ι} (hs : Plain s) (i : ι) : (s.pc i).Blocking := fun c hc =>
  Call.isBlocking_of_isPlain (hs.calls i c hc)

section Effects

variable [DecidableEq ι] {s : St ι} {i : ι} {e : Eff}

/-- The state of a waker is changed by an effect on it; a new waker has `Init`. -/
theorem apply_state (v : Nat) : ((s.apply i e).waker v).state = (s.waker v).state ∨
    e = .setState v ((s.apply i e).waker v).state ∨
      v = s.nextWaker ∧ ((s.apply i e).waker v).state = .init := by
  cases e with
  | setState w state =>
    rw [setState_state]
    split_ifs with hv
    · exact .inr (.inl (by rw [hv]))
    · exact .inl rfl
  | reg x w => exact .inl (field_update WakerInner.state (by rfl) v)
  | regNew x thin =>
    by_cases hv : v = s.nextWaker
    · subst hv
      exact .inr (.inr ⟨rfl, by simp [St.apply, St.register, St.setWaker, newWaker]⟩)
    · exact .inl (by
        simp [St.apply, St.register, St.setWaker, St.setReg, update_of_ne hv])
  | swap x thin =>
    by_cases hv : v = s.nextWaker
    · subst hv
      exact .inr (.inr ⟨rfl, by simp [St.apply, St.setWaker, newWaker]⟩)
    · exact .inl (by simp [St.apply, St.setWaker, update_of_ne hv])
  | wakeByRef w =>
    rw [apply_wakeByRef_waker]
    exact .inl (field_update WakerInner.state (by rfl) v)
  | _ => exact .inl rfl

end Effects

variable [Fintype ι] {cfg : Cfg} {s t : St ι} {i : ι} {choice : Bool} {e : Eff} {pc' : Pc}
  {x : Side} {w : Nat}

theorem Plain.calls_go (hs : Plain s) (hstep : PcStep cfg s i (s.pc i) e pc') {c : Call}
    (hc : pc'.call = some c) : c.isPlain = true := by
  rcases call_of_pcStep hstep hc with hold | ⟨-, final, hselect⟩
  · exact hs.calls i c hold
  · cases hs.calls i _ hselect

/-- No agent checks a deadline. -/
theorem Plain.checks_go (hs : Plain s) (h : stepPc cfg s i choice (s.pc i) = some (e, pc')) :
    pc'.checks = none := by
  cases hchecks : pc'.checks with
  | none => rfl
  | some c =>
    have hcall : pc'.call = some c := by cases pc' <;> cases hchecks; rfl
    have hdeadline := checks_of_stepPc h hchecks
    rw [Call.hasDeadline_of_isPlain (hs.calls_go (pcStep_of_stepPc h) hcall)] at hdeadline
    cases hdeadline

theorem commitWaiting_snd {state : WakerState} (h : state ≠ .closed ∧ state ≠ .done) :
    (commitWaiting state).2 ≠ .closed ∧ (commitWaiting state).2 ≠ .done := by
  cases state with
  | init => exact ⟨nofun, nofun⟩
  | _ => exact h

/-- Every agent stays plain. -/
theorem Plain.pcs_go (hs : Plain s) (hheld : Held s)
    (h : stepPc cfg s i choice (s.pc i) = some (e, pc')) : pc'.Plain := by
  have hchecks := hs.checks_go h
  have hstep := pcStep_of_stepPc h
  have hplain := hs.pcs i
  have hfits := hheld.fits i
  have hblocking := hs.blocking i
  generalize s.pc i = pc at hstep hplain hfits hblocking
  cases hstep with
  | recv _ c k m rest _ tries side queue goes | send _ c k m _ tries side msg room goes =>
    exact goes.plain
  | doubleSkip => exact ⟨nofun, nofun⟩
  | commit c w => exact commitWaiting_snd (hs.states w)
  | recasClosed c w | recasSame c w =>
    have hfalse := hblocking c rfl
    rw [hfits.2] at hfalse
    cases hfalse
  | closedSettle _ _ _ _ _ _ goes | congestNot _ _ _ goes | snoozeDone _ _ _ goes
  | snoozeWoken _ _ _ _ goes | state _ _ _ goes => exact goes.plain hchecks
  | timeout | timeoutSingle => exact hplain.elim
  | abandonOk | abandonFire | abandonErr | abandonRetry | close => exact hplain.elim
  | reuseWoken | reuse | clearSkip | clearLock => exact Cont.plain_pc _
  | fire x f k _ _ step => exact fireStep_plain step (hs.tidy x).select
  | _ => trivial

/-- The sections under the lock. -/
theorem tidy_of_pcStep {pc : Pc} {r : RegistryMulti} (h : PcStep cfg s i pc (.registry x r) pc')
    (hplain : pc.Plain) (hr : Tidy (s.reg x)) : Tidy r := by
  cases h with
  | clearLock => exact hr.popped _
  | fire _ f k _ _ step =>
    cases step with
    | popNone flag _ unlocked pop | popLast flag w _ unlocked pop
    | popFirst flag w last _ unlocked pop =>
      have htidy := hr.popFirst s.alive flag
      rwa [pop] at htidy
    | popAgainNone last _ unlocked pop | popAgain last w _ unlocked pop =>
      have htidy : Tidy ((s.reg x).popAgain s.alive).2 := hr.popped _
      rwa [pop] at htidy
  | close => exact hplain.elim

variable [DecidableEq ι]

/-- Every registry stays tidy. -/
theorem Plain.tidy_go (hs : Plain s) (hstep : PcStep cfg s i (s.pc i) e pc') (x : Side) :
    Tidy ((s.apply i e).reg x) := by
  cases e with
  | registry y r =>
    have hr := tidy_of_pcStep hstep (hs.pcs i) (hs.tidy y)
    by_cases hx : x = y
    · subst hx
      simpa [St.apply, St.setReg] using hr
    · simpa [St.apply, St.setReg, update_of_ne hx] using hs.tidy x
  | reg y w =>
    show Tidy ((s.register y w (s.waker w)).reg x)
    rw [register_reg]
    split_ifs with hx
    · exact (hs.tidy y).regWaker _
    · exact hs.tidy x
  | regNew y thin =>
    show Tidy ((s.register y s.nextWaker (newWaker i y thin)).reg x)
    rw [register_reg]
    split_ifs with hx
    · exact (hs.tidy y).regWaker _
    · exact hs.tidy x
  | unlock y =>
    have hplain := hs.pcs i
    generalize s.pc i = pc at hstep hplain
    cases hstep with
    | fire _ _ _ _ _ step => cases step
    | close => exact hplain.elim
  | wakeByRef w =>
    rw [apply_wakeByRef]
    exact hs.tidy x
  | _ => exact hs.tidy x

/-- No waker is closed or done. -/
theorem Plain.states_go (hs : Plain s) (hheld : Held s) (hstep : PcStep cfg s i (s.pc i) e pc')
    (w : Nat) :
    ((s.apply i e).waker w).state ≠ .closed ∧ ((s.apply i e).waker w).state ≠ .done := by
  rcases apply_state (s := s) (i := i) (e := e) w with hsame | hset | ⟨-, hinit⟩
  · rw [hsame]
    exact hs.states w
  · generalize ((s.apply i e).waker w).state = state at hset ⊢
    subst hset
    have hsets := sets_of_pcStep hstep (hheld.fits i) (hs.blocking i) (hs.pcs i)
    generalize s.pc i = pc at hsets
    cases hsets with
    | same => exact hs.states w
    | _ => exact ⟨nofun, nofun⟩
  · rw [hinit]
    exact ⟨nofun, nofun⟩

omit [DecidableEq ι] in
/-- An agent that waits goes on waiting until it sees that its waker is woken. -/
theorem Plain.awaits_go (hs : Plain s) (hplaced : Placed cfg s) (hkind : ∀ x, cfg.kind x = .multi)
    (h : stepPc cfg s i choice (s.pc i) = some (e, pc')) (hw : (s.pc i).awaits = some w) :
    pc'.awaits = some w ∨ (s.waker w).state.isWoken = true ∧ ∃ c, pc' = .spin c (some w) := by
  have hknows := hplaced.knows i w
  have hblocking := hs.blocking i
  have hplain := hs.pcs i
  generalize s.pc i = pc at h hw hknows hblocking hplain
  cases pc with
  | closed c v seen =>
    cases hw
    have hnext : stepPc cfg s i choice (.closed c w seen) =
        some (.skip, settle cfg c w seen) := by
      -- both sides are here in a plain run
      simp only [stepPc, closedPc_of_isBlocking (hblocking c rfl), hs.here, decide_false]
    rw [hnext] at h
    cases h
    rcases settle_cases cfg c w hplain with hwaits | ⟨hwoken, hspin⟩
    · exact .inl hwaits
    · exact .inr ⟨hknows (if_pos hwoken), c, hspin⟩
  | congest c v =>
    cases hw
    simp only [stepPc] at h
    split_ifs at h <;> cases h
    · exact .inl (parkPc_awaits c w)
    · exact .inl rfl
  | snooze c v =>
    cases hw
    simp only [stepPc] at h
    split_ifs at h with hwoken <;> cases h
    · exact (settle_cases cfg c w (hs.states w)).imp_right fun hspin => ⟨hspin.1, c, hspin.2⟩
    · exact .inl (parkPc_awaits c w)
    · exact .inl rfl
  | park c v =>
    cases hw
    simp only [stepPc] at h
    split_ifs at h
    cases h
    exact .inl rfl
  | state c v =>
    cases hw
    simp only [stepPc, waiterState, hkind, if_true] at h
    cases h
    exact (settle_cases cfg c w (hs.states w)).imp_right fun hspin => ⟨hspin.1, c, hspin.2⟩
  | deadline c v => exact hplain.elim
  | _ => cases hw

/-- A waker that waits has an owner that waits. -/
theorem Plain.waiting_go (hs : Plain s) (hheld : Held s) (hplaced : Placed cfg s)
    (hkind : ∀ x, cfg.kind x = .multi) (h : stepPc cfg s i choice (s.pc i) = some (e, pc'))
    (hw : ((s.apply i e).waker w).state = .waiting) :
    ∃ j, (((s.apply i e).setPc i pc').pc j).awaits = some w := by
  have hold (hbefore : (s.waker w).state = .waiting) :
      ∃ j, (((s.apply i e).setPc i pc').pc j).awaits = some w := by
    obtain ⟨j, hj⟩ := hs.waiting w hbefore
    by_cases hji : j = i
    · subst hji
      rcases hs.awaits_go hplaced hkind h hj with hawaits | ⟨hwoken, -⟩
      · exact ⟨j, by rwa [setPc_pc_self]⟩
      · rw [hbefore] at hwoken
        cases hwoken
    · exact ⟨j, by rwa [setPc_pc_of_ne hji, apply_pc]⟩
  rcases apply_state (s := s) (i := i) (e := e) w with hsame | hset | ⟨-, hinit⟩
  · exact hold (hsame.symm.trans hw)
  · rw [hw] at hset
    subst hset
    have hsets := sets_of_pcStep (pcStep_of_stepPc h) (hheld.fits i) (hs.blocking i) (hs.pcs i)
    generalize s.pc i = pc, hstate : WakerState.waiting = state at hsets
    cases hsets with
    | same => exact hold hstate.symm
    | commit c init => exact ⟨i, by rw [setPc_pc_self]; rfl⟩
    | _ => cases hstate
  · rw [hw] at hinit
    cases hinit

/-- Nobody else changes a waker in which `wake` is about to store `Woken`. -/
theorem Plain.stores_go (hs : Plain s) (hheld : Held s) (hplaced : Placed cfg s)
    (hstep : PcStep cfg s i (s.pc i) e pc') {j : ι}
    (hj : (((s.apply i e).setPc i pc').pc j).stores = some w) :
    ((s.apply i e).waker w).state = .waiting := by
  rw [go_pc] at hj
  split_ifs at hj with hji
  · subst hji
    obtain ⟨rfl, hwaiting⟩ := stores_of_pcStep hstep hj
    rw [setState_state, if_pos rfl]
    exact hwaiting
  · have hwaiting := hs.stores j w hj
    obtain ⟨x, hpops⟩ := Pc.pops_of_stores hj
    have hother (y : Side) : (s.pc i).pops ≠ some (y, w) := fun hi =>
      hji (hplaced.unique j i x y w hpops hi)
    have hknows := hplaced.knows i w
    rcases apply_state (s := s) (i := i) (e := e) w with hsame | hset | ⟨rfl, -⟩
    · exact hsame.trans hwaiting
    · generalize ((s.apply i e).waker w).state = state at hset ⊢
      subst hset
      have hsets := sets_of_pcStep hstep (hheld.fits i) (hs.blocking i) (hs.pcs i)
      generalize s.pc i = pc at hsets hother hknows
      cases hsets with
      | same => exact hwaiting
      | reset c =>
        -- only a woken waker is reset
        have hwoken := hknows rfl
        rw [hwaiting] at hwoken
        cases hwoken
      | commit c init => exact nomatch hwaiting.symm.trans init
      | store y | cas y => exact absurd rfl (hother y)
    · exact absurd (hheld.pops j x _ hpops).1 (Nat.lt_irrefl _)

/-- **A step of a call stays plain.** -/
theorem Plain.go (hs : Plain s) (hheld : Held s) (hplaced : Placed cfg s)
    (hkind : ∀ x, cfg.kind x = .multi) (h : stepPc cfg s i choice (s.pc i) = some (e, pc')) :
    Plain ((s.apply i e).setPc i pc') := by
  have hstep := pcStep_of_stepPc h
  refine ⟨?_, ?_, fun x => ?_, hs.tidy_go hstep, hs.states_go hheld hstep,
    fun w => hs.waiting_go hheld hplaced hkind h, fun j w => hs.stores_go hheld hplaced hstep⟩
  · exact forall_phase (P := fun pc : Pc => ∀ c, pc.call = some c → c.isPlain = true)
      (fun j _ => by rw [apply_pc]; exact hs.calls j) fun c => hs.calls_go hstep
  · exact forall_phase (fun j _ => by rw [apply_pc]; exact hs.pcs j) (hs.pcs_go hheld h)
  · show (s.apply i e).cnt x ≠ 0
    rw [apply_cnt]
    exact hs.here x

omit [Fintype ι] in
/-- The start of a call. -/
theorem Plain.call {c : Call} (hs : Plain s) (hidle : s.pc i = .idle) (hc : c.isPlain = true) :
    Plain ((s.countMsg c).setPc i (startPc c)) := by
  have hcount : (s.countMsg c).pc = s.pc := by unfold St.countMsg; split_ifs <;> rfl
  have hcnt : (s.countMsg c).cnt = s.cnt := by unfold St.countMsg; split_ifs <;> rfl
  have hreg : (s.countMsg c).reg = s.reg := by unfold St.countMsg; split_ifs <;> rfl
  have hwaker : (s.countMsg c).waker = s.waker := by unfold St.countMsg; split_ifs <;> rfl
  have hstart : (startPc c).Plain ∧ (startPc c).stores = none := by
    cases c with
    | recv | send => exact ⟨trivial, rfl⟩
    | _ => cases hc
  refine ⟨?_, ?_, fun x => ?_, fun x => ?_, fun w => ?_, fun w hw => ?_, fun j w hj => ?_⟩
  · refine forall_phase (P := fun pc : Pc => ∀ c, pc.call = some c → c.isPlain = true)
      (fun j _ => by rw [hcount]; exact hs.calls j) fun c' hc' => ?_
    rw [startPc_call] at hc'
    cases hc'
    exact hc
  · exact forall_phase (fun j _ => by rw [hcount]; exact hs.pcs j) hstart.1
  · show (s.countMsg c).cnt x ≠ 0
    rw [hcnt]
    exact hs.here x
  · show Tidy ((s.countMsg c).reg x)
    rw [hreg]
    exact hs.tidy x
  · show ((s.countMsg c).waker w).state ≠ .closed ∧ ((s.countMsg c).waker w).state ≠ .done
    rw [hwaker]
    exact hs.states w
  · have hwaiting : ((s.countMsg c).waker w).state = .waiting := hw
    rw [hwaker] at hwaiting
    obtain ⟨j, hj⟩ := hs.waiting w hwaiting
    have hji : j ≠ i := by
      rintro rfl
      rw [hidle] at hj
      cases hj
    exact ⟨j, by rwa [setPc_pc_of_ne hji, hcount]⟩
  · show ((s.countMsg c).waker w).state = .waiting
    rw [hwaker]
    by_cases hji : j = i
    · subst hji
      rw [setPc_pc_self, hstart.2] at hj
      cases hj
    · rw [setPc_pc_of_ne hji, hcount] at hj
      exact hs.stores j w hj

omit [Fintype ι] in
/-- A handle is cloned. -/
theorem Plain.addHandle (hs : Plain s) (x : Side) (j : ι) : Plain (s.addHandle x j) := by
  refine ⟨hs.calls, hs.pcs, fun y => ?_, hs.tidy, hs.states, hs.waiting, hs.stores⟩
  show update s.cnt x (s.cnt x + 1) y ≠ 0
  by_cases hy : y = x
  · subst hy
    rw [update_self]
    exact Nat.succ_ne_zero _
  · rw [update_of_ne hy]
    exact hs.here y

omit [Fintype ι] in
theorem plain_new (a b : ι) : Plain (St.new a b) :=
  ⟨nofun, fun _ => trivial, fun _ => Nat.one_ne_zero, fun _ => tidy_new, fun _ => ⟨nofun, nofun⟩,
    nofun, nofun⟩

end Invariant

end Crossfire.Channel
