import Crossfire.Lib.Interleaving
import Crossfire.WaitGroup.State
import Crossfire.Waker.State

/-!
# The wait group at atomic-operation granularity

`waitgroup.rs`: the heap block `WaitGroupInner` shared by one owner (`WaitGroup` or `WaitGroupZero`)
and any number of guards. One step is one atomic operation on the state word, one access to the
waker slot, one wake, one return from `park`, or one `Box::from_raw`; the steps of the owner and of
the guards interleave arbitrarily.

The owner creates guards, changes its threshold, waits by `wait_blocking` or by polling a
`WaitGroupFuture`, and ends by `try_into_inner` or by `drop` (`destroy`). A guard is cloned and
dropped (`done::<true>` through `done_ptr`). Guards are indexed by a finite type `ι`; a slot of it
is `absent` until a guard is put there. `park` may return at any time, and a deadline may have
passed at any check: both are choices of the scheduler.

Every registration of a waker gets a number. The history records which numbers were woken, and the
count that the last atomic operation of a wait read when the wait returned.
-/

set_option autoImplicit false

namespace Crossfire.WaitGroup

open Lib.Interleaving

/-- The waker slot: a waker with the number of its registration. -/
abbrev Slot (κ : Type) := Option (Nat × ThinWaker κ)

/-- The caller of `try_set_waker`. -/
inductive Wait (κ : Type)
  /-- `wait_blocking`; `setWaker` is its local flag, passed as `may_skip`. -/
  | block (threshold : Nat) (deadline setWaker : Bool)
  /-- `poll_async`. -/
  | poll (threshold : Nat) (k : κ)
  deriving DecidableEq, Repr

/-- The count that the waiter waits for. -/
def Wait.threshold {κ : Type} : Wait κ → Nat
  | .block threshold _ _ | .poll threshold _ => threshold

/-- A waker of this wait is in the slot already. -/
def Wait.maySkip {κ : Type} : Wait κ → Bool
  | .block _ _ setWaker => setWaker
  | .poll _ _ => false

/-- The waker that the waiter stores. -/
def Wait.waker {κ : Type} : Wait κ → ThinWaker κ
  | .block _ _ _ => .blocking
  | .poll _ k => .async k

/-- Program counter of the owner. -/
inductive OwnerPc (κ : Type)
  | idle
  /-- `wait_blocking`: `check!(Acquire)`; `snoozed` is the result of the `backoff.snooze()` before
  it. -/
  | check (threshold : Nat) (deadline setWaker snoozed : Bool)
  /-- `poll_async`: `check!(Acquire)`. -/
  | pollLoad (threshold : Nat) (k : κ)
  /-- `poll_async`: `check!(SeqCst)` on the way to `Pending`. -/
  | pollCheck (threshold : Nat) (k : κ)
  /-- `try_set_waker`: a load of the state. -/
  | setLoad (w : Wait κ)
  /-- `try_set_waker`: the compare-exchange that takes the lock. -/
  | setLock (w : Wait κ) (state : Nat)
  /-- `try_set_waker`: `get_waker().replace(waker)` under the lock. -/
  | setReplace (w : Wait κ)
  /-- `try_set_waker`: `fetch_xor(WAKER_FLAG_MASK)`. -/
  | setXor (w : Wait κ)
  /-- `try_set_waker`: `get_waker().replace(waker)` with no flag set. -/
  | setFresh (w : Wait κ)
  /-- `try_set_waker`: `fetch_or(WAKER_FLAG_SET)`. -/
  | setOr (w : Wait κ)
  /-- `wait_blocking`: `check_timeout(deadline)`. -/
  | deadline (threshold : Nat) (deadline : Bool)
  | park (threshold : Nat) (deadline : Bool)
  /-- `try_into_inner`: `get_left_seqcst()`. -/
  | intoLoad
  /-- `try_into_inner`: `Box::from_raw`. -/
  | intoFree
  /-- `destroy`: the first load. -/
  | destroyLoad
  /-- `destroy`: the compare-exchange. -/
  | destroyCas (state : Nat)
  /-- `destroy`: `Box::from_raw`. -/
  | destroyFree
  /-- `try_into_inner` returned `Ok`. -/
  | taken
  /-- Dropped. -/
  | gone
  /-- `add` panicked. -/
  | panicked
  deriving DecidableEq, Repr

/-- Program counter of a guard. -/
inductive GuardPc (κ : Type)
  | absent
  | alive (threshold : Nat)
  /-- `done`: the first load. -/
  | load (threshold : Nat)
  /-- `done`: the second load after `is_last`. -/
  | recheck (threshold state : Nat)
  /-- `done`: the compare-exchange. -/
  | cas (threshold state : Nat)
  /-- `done`: `get_waker().take()` under the lock. -/
  | takeSlot
  /-- `done`: `fetch_and(!WAKER_FLAG_MASK)`. -/
  | unlock (waker : Slot κ)
  /-- `done`: `waker.wake()`. -/
  | wake (number : Nat) (waker : ThinWaker κ)
  /-- `done_ptr`: `Box::from_raw`; `counted` says that the guard's reference is still in the
  count. -/
  | free (counted : Bool)
  | gone
  /-- The underflow panic of `try_done`, or the overflow panic of `add`. -/
  | panicked
  deriving DecidableEq, Repr

/-- The results of a wait. -/
inductive WaitRes
  /-- `Ok(())` or `Poll::Ready(())`. -/
  | ready
  | pending
  | timeout
  deriving DecidableEq, Repr

/-- The block, the owner, the guards and the history. -/
structure St (ι κ : Type) where
  state : Nat
  slot : Slot κ
  /-- How often the block was freed. -/
  frees : Nat
  owner : OwnerPc κ
  /-- The `threshold` field of the `WaitGroup`. -/
  threshold : Nat
  /-- The current `WaitGroupFuture`: its `threshold` and `waker` fields. -/
  future : Option (Nat × Option κ)
  guard : ι → GuardPc κ
  /-- Number of the last registration. -/
  registered : Nat
  /-- Registrations that were woken. -/
  woken : List Nat
  /-- The last poll of the current future returned `Pending`. -/
  pending : Bool
  /-- What the last wait returned, and the count read by its last atomic operation. -/
  answer : Option (WaitRes × Nat)

/-- `WaitGroup::new`: one reference is the owner's. -/
def St.new {ι κ : Type} (threshold : Nat) : St ι κ where
  state := 1
  slot := none
  frees := 0
  owner := .idle
  threshold := threshold + 1
  future := none
  guard _ := .absent
  registered := 0
  woken := []
  pending := false
  answer := none

/-- A call starts, or somebody takes a step. -/
inductive Act (ι κ : Type)
  | addGuard (i : ι)
  | setThreshold (threshold : Nat)
  | wait (deadline : Bool)
  | waitAsync
  | poll (k : κ)
  | dropFuture
  | tryIntoInner
  | drop
  | stepOwner (choice : Bool)
  | clone (i j : ι)
  | dropGuard (i : ι)
  | stepGuard (i : ι) (spurious : Bool)
  deriving DecidableEq, Repr

section Step

variable {ι κ : Type} [DecidableEq ι] (b : Nat) (willWake : κ → κ → Bool)

/-- Guard `i` goes to `pc`. -/
def St.setGuard (s : St ι κ) (i : ι) (pc : GuardPc κ) : St ι κ :=
  { s with guard := Function.update s.guard i pc }

/-- A wait returns, having read `s.state`. -/
def St.ret (s : St ι κ) (r : WaitRes) : St ι κ :=
  { s with owner := .idle, pending := decide (r = .pending), answer := some (r, count b s.state) }

/-- `try_set_waker` returned `Ok`. -/
def St.setOk (s : St ι κ) : Wait κ → St ι κ
  | .block threshold deadline _ => { s with owner := .deadline threshold deadline }
  | .poll threshold k => { s.ret b .pending with future := some (threshold, some k) }

/-- The slot takes the waker of a new registration. -/
def St.replace (s : St ι κ) (w : Wait κ) : St ι κ :=
  { s with slot := some (s.registered + 1, w.waker), registered := s.registered + 1 }

/-- The loop of `try_set_waker`, having just read `s.state`. -/
def setNext (s : St ι κ) (w : Wait κ) : St ι κ :=
  if count b s.state ≤ w.threshold then s.ret b .ready
  else if isLocked b s.state then { s with owner := .setLoad w }
  else if hasWaker b s.state then
    if w.maySkip then s.setOk b w else { s with owner := .setLock w s.state }
  else { s with owner := .setFresh w }

/-- The end of `try_set_waker`: `s.state` is the old word, `new` the one written over it. -/
def setFinish (s : St ι κ) (w : Wait κ) (new : Nat) : St ι κ :=
  if count b s.state ≤ w.threshold then { s.ret b .ready with state := new }
  else { s.setOk b w with state := new }

/-- The loop of `destroy` on a word it has read. -/
def destroyNext (state : Nat) : OwnerPc κ :=
  if isLocked b state ∨ 1 < count b state then .destroyCas state else .destroyFree

/-- One step of the owner's call. -/
def stepOwner (s : St ι κ) (choice : Bool) : Option (St ι κ) :=
  match s.owner with
  | .check threshold deadline setWaker snoozed =>
    if count b s.state ≤ threshold then some (s.ret b .ready)
    else if snoozed then some { s with owner := .setLoad (.block threshold deadline setWaker) }
    else some { s with owner := .check threshold deadline setWaker choice }
  | .pollLoad threshold k =>
    if count b s.state ≤ threshold then some (s.ret b .ready)
    else
      match s.future with
      | some (_, some old) =>
        if hasWaker b s.state ∧ willWake old k then
          some { s with owner := .pollCheck threshold k }
        else some { s with owner := .setLoad (.poll threshold k) }
      | _ => some { s with owner := .setLoad (.poll threshold k) }
  | .pollCheck threshold _ =>
    if count b s.state ≤ threshold then some (s.ret b .ready) else some (s.ret b .pending)
  | .setLoad w => some (setNext b s w)
  | .setLock w state =>
    if s.state = state ∧ choice = false then
      some { s with state := tryLock b state, owner := .setReplace w }
    else some (setNext b s w)
  | .setReplace w => some { s.replace w with owner := .setXor w }
  | .setXor w => some (setFinish b s w (s.state ^^^ wakerFlagMask b))
  | .setFresh w => some { s.replace w with owner := .setOr w }
  | .setOr w => some (setFinish b s w (s.state ||| wakerFlagSet b))
  | .deadline threshold deadline =>
    if deadline && choice then some (s.ret b .timeout)
    else some { s with owner := .park threshold deadline }
  | .park threshold deadline => some { s with owner := .check threshold deadline true choice }
  | .intoLoad =>
    -- `get_left_seqcst() == 0`, where the subtraction of the own reference wraps
    if count b s.state = 1 then some { s with owner := .intoFree }
    else some { s with owner := .idle }
  | .intoFree => some { s with frees := s.frees + 1, slot := none, owner := .taken }
  | .destroyLoad => some { s with owner := destroyNext b s.state }
  | .destroyCas state =>
    if s.state = state ∧ choice = false then some { s with state := state - 1, owner := .gone }
    else some { s with owner := destroyNext b s.state }
  | .destroyFree => some { s with frees := s.frees + 1, slot := none, owner := .gone }
  | .idle | .taken | .gone | .panicked => none

/-- The loop of `done` on a word it has read. -/
def guardNext (threshold state : Nat) : GuardPc κ :=
  if isLast b state 1 then .recheck threshold state
  else if (tryDone b state 1 threshold).isSome then .cas threshold state
  else .panicked

/-- `done` after it released the lock with references left. -/
def afterUnlock : Slot κ → GuardPc κ
  | some (number, waker) => .wake number waker
  | none => .gone

/-- One step of `done_ptr` of guard `i`. -/
def stepGuard (s : St ι κ) (i : ι) (spurious : Bool) : Option (St ι κ) :=
  match s.guard i with
  | .load threshold => some (s.setGuard i (guardNext b threshold s.state))
  | .recheck threshold state =>
    if s.state = state then some (s.setGuard i (.free true))
    else some (s.setGuard i (guardNext b threshold s.state))
  | .cas threshold state =>
    if s.state = state ∧ spurious = false then
      match tryDone b state 1 threshold with
      | some (true, new) => some ({ s with state := new }.setGuard i .takeSlot)
      | some (false, new) => some ({ s with state := new }.setGuard i .gone)
      | none => none
    else some (s.setGuard i (guardNext b threshold s.state))
  | .takeSlot => some ({ s with slot := none }.setGuard i (.unlock s.slot))
  | .unlock waker =>
    some ({ s with state := s.state &&& countMask b }.setGuard i
      (if count b s.state = 0 then .free false else afterUnlock waker))
  | .wake number _ => some ({ s with woken := number :: s.woken }.setGuard i .gone)
  | .free _ => some ({ s with frees := s.frees + 1, slot := none }.setGuard i .gone)
  | .absent | .alive _ | .gone | .panicked => none

/-- `add(1)` panics on the old count. -/
def overflows (state : Nat) : Bool := decide (countMask b - 2 ≤ count b state)

/-- One action of the system. -/
def step (s : St ι κ) : Act ι κ → Option (St ι κ)
  | .addGuard i =>
    match s.owner, s.guard i with
    | .idle, .absent =>
      let t := { s with state := fetchAdd b s.state 1 }
      if overflows b s.state then some { t with owner := .panicked }
      else some (t.setGuard i (.alive s.threshold))
    | _, _ => none
  | .setThreshold threshold =>
    match s.owner, s.future with
    | .idle, none => some { s with threshold := threshold + 1 }
    | _, _ => none
  | .wait deadline =>
    match s.owner with
    | .idle => some { s with owner := .check s.threshold deadline false false, pending := false }
    | _ => none
  | .waitAsync =>
    match s.owner with
    | .idle => some { s with future := some (s.threshold, none), pending := false }
    | _ => none
  | .poll k =>
    match s.owner, s.future with
    | .idle, some (threshold, _) => some { s with owner := .pollLoad threshold k }
    | _, _ => none
  | .dropFuture =>
    match s.owner with
    | .idle => some { s with future := none, pending := false }
    | _ => none
  | .tryIntoInner =>
    match s.owner, s.future with
    | .idle, none => some { s with owner := .intoLoad }
    | _, _ => none
  | .drop =>
    match s.owner, s.future with
    | .idle, none => some { s with owner := .destroyLoad }
    | _, _ => none
  | .stepOwner choice => stepOwner b willWake s choice
  | .clone i j =>
    match s.guard i, s.guard j with
    | .alive threshold, .absent =>
      let t := { s with state := fetchAdd b s.state 1 }
      if overflows b s.state then some (t.setGuard i .panicked)
      else some (t.setGuard j (.alive threshold))
    | _, _ => none
  | .dropGuard i =>
    match s.guard i with
    | .alive threshold => some (s.setGuard i (.load threshold))
    | _ => none
  | .stepGuard i spurious => stepGuard b s i spurious

/-- The wait group as an interleaving system. -/
def system : System (St ι κ) (Act ι κ) where
  init s := ∃ threshold, s = St.new threshold
  step := step b willWake

end Step

end Crossfire.WaitGroup
