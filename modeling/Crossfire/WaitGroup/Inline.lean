import Crossfire.WaitGroup.Memory

/-!
# `WaitGroupInline`

`waitgroup.rs`: the wait group without ownership. Any number of callers run `add`, `add_many`,
`done` and `done_many`, one call at a time each, on the word that they share with at most one
waiter. The waiter's calls are those of a `WaitGroup` (`wait_blocking` and `poll_async` with
`try_set_waker`), so its steps are the owner's steps of that machine. The inline group has no
reference of its own and frees nothing.

`done` and `done_many` are `done::<false>`. Both exits of its loop return `false`, so a call never
reports that it brought the count to zero (`done_reports_false`). `done_reports` is what is left of
the promise.
-/

set_option autoImplicit false

namespace Crossfire.WaitGroup.Inline

open Lib.Interleaving Lib.FlagWord Function

/-- Program counter of a caller. From the decrement on, `zero` says whether it brought the count to
zero. -/
inductive CallerPc (κ : Type)
  | idle
  /-- `done`: the first load. -/
  | load (delta : Nat)
  /-- `done`: the compare-exchange. -/
  | cas (delta state : Nat)
  /-- `done`: `get_waker().take()` under the lock. -/
  | takeSlot (zero : Bool)
  /-- `done`: `fetch_and(!WAKER_FLAG_MASK)`. -/
  | unlock (zero : Bool) (waker : Slot κ)
  /-- `done`: `waker.wake()`. -/
  | wake (zero : Bool) (number : Nat) (waker : ThinWaker κ)
  /-- The overflow panic of `add`, or the underflow panic of `try_done`. -/
  | panicked
  deriving DecidableEq, Repr

/-- The group and the callers of `add` and `done`. -/
structure St (ι κ : Type) where
  /-- The word, the waker slot and the waiter. -/
  group : WaitGroup.St Empty κ
  caller : ι → CallerPc κ
  /-- For every `done` call that returned: its result, and whether its decrement brought the count
  to zero. -/
  returned : List (Bool × Bool)

/-- `WaitGroupInline::new`. -/
def St.new {ι κ : Type} (threshold : Nat) : St ι κ where
  group := { WaitGroup.St.new 0 with state := 0, threshold := threshold }
  caller _ := .idle
  returned := []

/-- Calls of a caller; the amounts of `add_many` and `done_many` pass their `debug_assert!`. -/
inductive Call
  | add
  | addMany (n : Nat)
  | done
  | doneMany (n : Nat)
  deriving DecidableEq, Repr

/-- By how much the call changes the count. -/
def Call.amount : Call → Nat
  | .add | .done => 1
  | .addMany n | .doneMany n => n

/-- The call adds. -/
def Call.isAdd : Call → Bool
  | .add | .addMany _ => true
  | .done | .doneMany _ => false

/-- `debug_assert!(count < COUNT_MASK - 2)`. -/
def Call.asserts (b : Nat) : Call → Bool
  | .add | .done => true
  | .addMany n | .doneMany n => decide (n < countMask b - 2)

/-- A call starts, a caller takes a step, or the waiter does something. -/
inductive Act (ι κ : Type)
  | call (i : ι) (c : Call)
  | stepCaller (i : ι) (spurious : Bool)
  | wait (deadline : Bool)
  | waitAsync
  | poll (k : κ)
  | dropFuture
  | stepWaiter (choice : Bool)
  deriving DecidableEq, Repr

/-- The waiter's actions, as actions of a `WaitGroup`. -/
def Act.waiter {ι κ : Type} : Act ι κ → Option (WaitGroup.Act Empty κ)
  | .call _ _ | .stepCaller _ _ => none
  | .wait deadline => some (.wait deadline)
  | .waitAsync => some .waitAsync
  | .poll k => some (.poll k)
  | .dropFuture => some .dropFuture
  | .stepWaiter choice => some (.stepOwner choice)

section Step

variable {ι κ : Type} [DecidableEq ι] (b : Nat) (willWake : κ → κ → Bool) (threshold : Nat)

/-- Caller `i` goes to `pc`. -/
def St.setCaller (s : St ι κ) (i : ι) (pc : CallerPc κ) : St ι κ :=
  { s with caller := update s.caller i pc }

/-- The word changes. -/
def St.setState (s : St ι κ) (state : Nat) : St ι κ :=
  { s with group := { s.group with state := state } }

/-- `return false`. -/
def St.ret (s : St ι κ) (i : ι) (zero : Bool) : St ι κ :=
  { s with caller := update s.caller i .idle, returned := (false, zero) :: s.returned }

/-- `add` looks at the old count after it has added. -/
def afterAdd (old : Nat) : CallerPc κ := if overflows b old then .panicked else .idle

/-- The loop of `done` on a word it has read. -/
def doneNext (delta state : Nat) : CallerPc κ :=
  if (tryDone b state delta threshold).isSome then .cas delta state else .panicked

/-- One step of `done::<false>` of caller `i`. -/
def stepCaller (s : St ι κ) (i : ι) (spurious : Bool) : Option (St ι κ) :=
  match s.caller i with
  | .load delta => some (s.setCaller i (doneNext b threshold delta s.group.state))
  | .cas delta state =>
    if s.group.state = state ∧ spurious = false then
      match tryDone b state delta threshold with
      | some (true, new) =>
        some ((s.setState new).setCaller i (.takeSlot (decide (count b new = 0))))
      | some (false, new) => some ((s.setState new).ret i (decide (count b new = 0)))
      | none => none
    else some (s.setCaller i (doneNext b threshold delta s.group.state))
  | .takeSlot zero =>
    some ({ s with group := { s.group with slot := none } }.setCaller i
      (.unlock zero s.group.slot))
  | .unlock zero waker =>
    let t := s.setState (s.group.state &&& countMask b)
    match waker with
    | some (number, waker) => some (t.setCaller i (.wake zero number waker))
    | none => some (t.ret i zero)
  | .wake zero number _ =>
    some ({ s with group := { s.group with woken := number :: s.group.woken } }.ret i zero)
  | .idle | .panicked => none

/-- One action of the system. -/
def step (s : St ι κ) (a : Act ι κ) : Option (St ι κ) :=
  match a with
  | .call i c =>
    match s.caller i with
    | .idle =>
      if c.asserts b then
        if c.isAdd then
          some ((s.setState (fetchAdd b s.group.state c.amount)).setCaller i
            (afterAdd b s.group.state))
        else some (s.setCaller i (.load c.amount))
      else none
    | _ => none
  | .stepCaller i spurious => stepCaller b threshold s i spurious
  | a =>
    match a.waiter with
    | some a => (WaitGroup.step b willWake s.group a).map fun group => { s with group := group }
    | none => none

/-- A new group, and the steps of its users. -/
def system : System (St ι κ) (Act ι κ) where
  init s := s = St.new threshold
  step := step b willWake threshold

end Step

/-! ## What one step does -/

section Steps

variable {ι κ : Type} [DecidableEq ι] (b threshold : Nat)

/-- The amount that the next step of a caller takes off the count; `none` if it is not a successful
compare-exchange of `done`. -/
def CallerPc.removal (state : Nat) (spurious : Bool) : CallerPc κ → Option Nat
  | .cas delta old => if state = old ∧ spurious = false then some delta else none
  | _ => none

/-- The caller reads the word at the top of the loop of `done`. -/
def CallerPc.reads (state : Nat) (spurious : Bool) (delta : Nat) (pc : CallerPc κ) : Prop :=
  pc = .load delta ∨ ∃ old, pc = .cas delta old ∧ pc.removal state spurious = none

/-- The steps of caller `i`. -/
inductive CallerStep (s : St ι κ) (i : ι) (spurious : Bool) : St ι κ → Prop
  | more (delta : Nat) (pc : (s.caller i).reads s.group.state spurious delta) :
      CallerStep s i spurious (s.setCaller i (.cas delta s.group.state))
  | underflow (delta : Nat) (pc : (s.caller i).reads s.group.state spurious delta) :
      CallerStep s i spurious (s.setCaller i .panicked)
  | lock (delta new : Nat) (pc : s.caller i = .cas delta s.group.state) (hit : spurious = false)
      (word : tryDone b s.group.state delta threshold = some (true, new)) :
      CallerStep s i spurious
        ((s.setState new).setCaller i (.takeSlot (decide (count b new = 0))))
  | leave (delta new : Nat) (pc : s.caller i = .cas delta s.group.state) (hit : spurious = false)
      (word : tryDone b s.group.state delta threshold = some (false, new)) :
      CallerStep s i spurious ((s.setState new).ret i (decide (count b new = 0)))
  | take (zero : Bool) (pc : s.caller i = .takeSlot zero) :
      CallerStep s i spurious ({ s with group := { s.group with slot := none } }.setCaller i
        (.unlock zero s.group.slot))
  | unlock (zero : Bool) (number : Nat) (waker : ThinWaker κ)
      (pc : s.caller i = .unlock zero (some (number, waker))) :
      CallerStep s i spurious ((s.setState (s.group.state &&& countMask b)).setCaller i
        (.wake zero number waker))
  | unlockNone (zero : Bool) (pc : s.caller i = .unlock zero none) :
      CallerStep s i spurious ((s.setState (s.group.state &&& countMask b)).ret i zero)
  | wake (zero : Bool) (number : Nat) (waker : ThinWaker κ)
      (pc : s.caller i = .wake zero number waker) :
      CallerStep s i spurious
        ({ s with group := { s.group with woken := number :: s.group.woken } }.ret i zero)

variable {b threshold} {s t : St ι κ} {i : ι} {spurious : Bool}

theorem callerStep_doneNext {delta : Nat}
    (pc : (s.caller i).reads s.group.state spurious delta) :
    CallerStep b threshold s i spurious
      (s.setCaller i (doneNext b threshold delta s.group.state)) := by
  unfold doneNext
  split_ifs
  · exact .more delta pc
  · exact .underflow delta pc

/-- A step of a caller is one of `CallerStep`. -/
theorem callerStep_of_stepCaller (h : stepCaller b threshold s i spurious = some t) :
    CallerStep b threshold s i spurious t := by
  unfold stepCaller at h
  split at h
  case h_1 delta pc => cases h; exact callerStep_doneNext (.inl pc)
  case h_2 delta state pc =>
    split_ifs at h with hcas
    · obtain ⟨rfl, hit⟩ := hcas
      split at h
      · next new word => cases h; exact .lock delta new pc hit word
      · next new word => cases h; exact .leave delta new pc hit word
      · cases h
    · cases h
      refine callerStep_doneNext (.inr ⟨state, pc, ?_⟩)
      rw [pc, CallerPc.removal, if_neg hcas]
  case h_3 zero pc => cases h; exact .take zero pc
  case h_4 zero waker pc =>
    dsimp only at h
    split at h
    · next number w => cases h; exact .unlock zero number w pc
    · cases h; exact .unlockNone zero pc
  case h_5 zero number w pc => cases h; exact .wake zero number w pc
  all_goals cases h

/-- Every step is the start of a call, a step of a caller, or a step of the waiter. -/
theorem step_cases {willWake : κ → κ → Bool} {a : Act ι κ}
    (h : step b willWake threshold s a = some t) :
    (∃ i c, a = .call i c ∧ s.caller i = .idle ∧ c.isAdd = true ∧
        t = (s.setState (fetchAdd b s.group.state c.amount)).setCaller i
          (afterAdd b s.group.state)) ∨
      (∃ i c, a = .call i c ∧ s.caller i = .idle ∧ c.isAdd = false ∧
        t = s.setCaller i (.load c.amount)) ∨
      (∃ i spurious, a = .stepCaller i spurious ∧ stepCaller b threshold s i spurious = some t) ∨
      ∃ a' group, a.waiter = some a' ∧ WaitGroup.step b willWake s.group a' = some group ∧
        t = { s with group := group } := by
  unfold step at h
  split at h
  case h_1 i c =>
    split at h
    · next pc =>
        split_ifs at h with hassert hadd
        · cases h; exact .inl ⟨i, c, rfl, pc, hadd, rfl⟩
        · cases h; exact .inr (.inl ⟨i, c, rfl, pc, Bool.eq_false_iff.mpr hadd, rfl⟩)
    · cases h
  case h_2 i spurious => exact .inr (.inr (.inl ⟨i, spurious, rfl, h⟩))
  case h_3 =>
    split at h
    · next a' ha' =>
        rw [Option.map_eq_some_iff] at h
        obtain ⟨group, hgroup, rfl⟩ := h
        exact .inr (.inr (.inr ⟨a', group, ha', hgroup, rfl⟩))
    · cases h

end Steps

/-! ## What `done` reports -/

section Reports

variable {ι κ : Type} [DecidableEq ι] {b threshold : Nat}

/-- The step is not a decrement to zero. -/
def CallerPc.leavesSome (b state : Nat) : CallerPc κ → Prop
  | .cas delta old => state = old → count b old ≠ delta
  | _ => True

/-- No decrement of `done` brings the count to zero. -/
def leavesSome (b : Nat) (s : St ι κ) : Act ι κ → Prop
  | .stepCaller i _ => (s.caller i).leavesSome b s.group.state
  | _ => True

instance (b state : Nat) : (pc : CallerPc κ) → Decidable (pc.leavesSome b state)
  | .cas _ _ => inferInstanceAs (Decidable (_ → _))
  | .idle | .load _ | .takeSlot _ | .unlock _ _ | .wake _ _ _ | .panicked =>
    inferInstanceAs (Decidable True)

instance (b : Nat) (s : St ι κ) : (a : Act ι κ) → Decidable (leavesSome b s a)
  | .stepCaller i _ => inferInstanceAs (Decidable ((s.caller i).leavesSome b s.group.state))
  | .call _ _ | .wait _ | .waitAsync | .poll _ | .dropFuture | .stepWaiter _ =>
    inferInstanceAs (Decidable True)

/-- The decrement of a running `done` brought the count to zero. -/
def CallerPc.zero : CallerPc κ → Bool
  | .takeSlot zero | .unlock zero _ | .wake zero _ _ => zero
  | .idle | .load _ | .cas _ _ | .panicked => false

/-- Every result so far is right, and no call in progress has seen zero. -/
structure Reports (s : St ι κ) : Prop where
  returned : ∀ p ∈ s.returned, p.1 = true ↔ p.2 = true
  caller : ∀ i, (s.caller i).zero = false

variable {s t : St ι κ} {i : ι}

omit [DecidableEq ι] in
theorem Reports.mk_ret (h : Reports s) :
    ∀ p ∈ (false, false) :: s.returned, p.1 = true ↔ p.2 = true := by
  intro p hp
  rcases List.mem_cons.mp hp with rfl | hp
  · exact Iff.rfl
  · exact h.returned p hp

/-- A caller moves on. -/
theorem Reports.setCaller (h : Reports s) (hret : t.returned = s.returned)
    {pc : CallerPc κ} (hcaller : t.caller = update s.caller i pc) (hpc : pc.zero = false) :
    Reports t := by
  refine ⟨hret ▸ h.returned, fun j => ?_⟩
  rw [hcaller]
  exact forall_phase (P := fun pc : CallerPc κ => pc.zero = false) (fun j _ => h.caller j) hpc j

theorem Reports.ret (h : Reports s) (hret : t.returned = (false, false) :: s.returned)
    (hcaller : t.caller = update s.caller i .idle) : Reports t := by
  refine ⟨hret ▸ h.mk_ret, fun j => ?_⟩
  rw [hcaller]
  exact forall_phase (P := fun pc : CallerPc κ => pc.zero = false) (fun j _ => h.caller j) rfl j

/-- A step of a caller. -/
theorem Reports.callerStep {spurious : Bool} (h : Reports s)
    (hok : (s.caller i).leavesSome b s.group.state)
    (hstep : CallerStep b threshold s i spurious t) : Reports t := by
  have hzero := h.caller i
  -- the count after a decrement that leaves references
  have hleaves : ∀ {delta new locks}, s.caller i = .cas delta s.group.state →
      tryDone b s.group.state delta threshold = some (locks, new) →
      decide (count b new = 0) = false := by
    intro delta new locks hpc hword
    rw [hpc] at hok
    obtain ⟨hdelta, hcount⟩ := count_tryDone hword
    have hne : count b s.group.state ≠ delta := hok rfl
    rw [hcount, decide_eq_false_iff_not]
    omega
  cases hstep with
  | more delta pc | underflow delta pc => exact h.setCaller rfl rfl rfl
  | lock delta new pc hit word => exact h.setCaller rfl rfl (hleaves pc word)
  | leave delta new pc hit word =>
    rw [hleaves pc word]
    exact h.ret rfl rfl
  | take _ pc | unlock _ _ _ pc =>
    rw [pc] at hzero
    exact h.setCaller rfl rfl hzero
  | unlockNone zero pc | wake zero number waker pc =>
    rw [pc] at hzero
    obtain rfl : zero = false := hzero
    exact h.ret rfl rfl

/-- **The reports are right in every run.** -/
theorem reports_of_reach {willWake : κ → κ → Bool}
    (h : Reach (system b willWake threshold) (leavesSome b) s) : Reports s := by
  refine h.invariant ?_ fun s a t hs hok hstep => ?_
  · rintro s rfl
    exact ⟨nofun, fun _ => rfl⟩
  · rcases step_cases hstep with ⟨i, c, rfl, pc, _, rfl⟩ | ⟨i, c, rfl, pc, _, rfl⟩ |
      ⟨i, spurious, rfl, hcaller⟩ | ⟨a', group, _, _, rfl⟩
    · refine hs.setCaller rfl rfl ?_
      unfold afterAdd
      split_ifs <;> rfl
    · exact hs.setCaller rfl rfl rfl
    · exact hs.callerStep hok (callerStep_of_stepCaller hcaller)
    · exact ⟨hs.returned, hs.caller⟩

end Reports

/-- In the runs in which no decrement brings the count to zero, a call returns `true` exactly when
its own decrement did. -/
theorem done_reports {ι κ : Type} [DecidableEq ι] {b threshold : Nat} {willWake : κ → κ → Bool}
    {s : St ι κ} (h : Reach (system b willWake threshold) (leavesSome b) s) {result zero : Bool}
    (hp : (result, zero) ∈ s.returned) : result = true ↔ zero = true :=
  (reports_of_reach h).returned _ hp

/-- One reference is added and removed: the call that brings the count to zero returns `false`. -/
theorem done_reports_false :
    ∃ s : St (Fin 1) Nat, Reachable (system 62 (· == ·) 0) s ∧ (false, true) ∈ s.returned := by
  have hnew : Reachable (system 62 (· == ·) 0) (St.new 0 : St (Fin 1) Nat) := .init rfl
  exact hnew.exists_of_run
    [.call 0 .add, .call 0 .done, .stepCaller 0 false, .stepCaller 0 false] _ (by decide +kernel)

/-- Three references, one `done_many` of two of them. -/
theorem done_reports_some :
    ∃ s : St (Fin 1) Nat, Reach (system 62 (· == ·) 0) (leavesSome 62) s ∧ s.returned ≠ [] ∧
      ∀ p ∈ s.returned, p.1 = true ↔ p.2 = true := by
  have hnew : Reach (system 62 (· == ·) 0) (leavesSome 62) (St.new 0 : St (Fin 1) Nat) := .init rfl
  obtain ⟨s, hs, htest⟩ := hnew.exists_of_run
    [.call 0 (.addMany 3), .call 0 (.doneMany 2), .stepCaller 0 false, .stepCaller 0 false]
    (fun s => s.returned ≠ []) (by decide +kernel)
  exact ⟨s, hs, htest, fun p hp => done_reports hs hp⟩

end Crossfire.WaitGroup.Inline
