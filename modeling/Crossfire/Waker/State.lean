import Mathlib.Order.Basic

/-!
# The waker of one registration

`waker.rs`: the state of a `WakerInner` and the loops that change it, one atomic operation at a
time. `wake` is run by the thread that popped the waker from the registry, `abandon` by its owner,
and `close_wake` by the last handle of the other side; the last two are `change_state_smaller_eq`.
A step function takes the current state of the waker and gives its next state and the next program
counter of the loop.
-/

set_option autoImplicit false

namespace Crossfire

/-- A handle that can be woken: a task waker of type `κ`, or the current thread. -/
inductive ThinWaker (κ : Type)
  | async (k : κ)
  | blocking
  deriving DecidableEq, Repr

namespace Waker

/-- `WakerState`, in the order of its numbers. -/
inductive WakerState
  | init
  | waiting
  | woken
  /-- Channel closed, or cancelled. -/
  | closed
  | done
  deriving DecidableEq, Repr

/-- The `repr(u8)` values; the code compares states by them. -/
def WakerState.toNat : WakerState → Nat
  | .init => 0
  | .waiting => 1
  | .woken => 3
  | .closed => 4
  | .done => 5

/-- `state >= WakerState::Woken as u8`. -/
def WakerState.isWoken (state : WakerState) : Bool := decide (WakerState.woken.toNat ≤ state.toNat)

/-- Results of `wake`; the one for a direct copy is never produced. -/
inductive WakeResult
  | woken
  | next
  | skip
  deriving DecidableEq, Repr

/-- `is_done`: the iteration over the registry stops. -/
def WakeResult.isDone : WakeResult → Bool
  | .woken => true
  | .next | .skip => false

/-- `commit_waiting`: the new state of the waker and the returned state. -/
def commitWaiting (state : WakerState) : WakerState × WakerState :=
  match state with
  | .init => (.waiting, .waiting)
  | s => (s, s)

/-! ## `wake` -/

/-- Program counter of `wake`. -/
inductive WakePc
  /-- The load of the state. -/
  | load
  /-- The store of `Woken` over a loaded `Waiting`. -/
  | store
  /-- The compare-exchange from `Init` to `Woken`. -/
  | cas
  /-- `wake_by_ref`. -/
  | wakeByRef (result : WakeResult)
  | returned (result : WakeResult)
  deriving DecidableEq, Repr

/-- The branch `wake` takes on a state it has read. -/
def wakeBranch (state : WakerState) : WakePc :=
  if state.isWoken then .returned .skip
  else if state = .waiting then .store
  else .cas

/-- One step of `wake`. -/
def wakeStep (state : WakerState) (pc : WakePc) (spurious : Bool) : WakerState × WakePc :=
  match pc with
  | .load => (state, wakeBranch state)
  | .store => (.woken, .wakeByRef .woken)
  | .cas =>
    if state = .init ∧ spurious = false then (.woken, .wakeByRef .next)
    else (state, wakeBranch state)
  | .wakeByRef result => (state, .returned result)
  | .returned result => (state, .returned result)

/-! ## `change_state_smaller_eq` -/

/-- Program counter of `change_state_smaller_eq`. -/
inductive ChangePc
  /-- The compare-exchange from `expected`. -/
  | cas (expected : WakerState)
  | ok (previous : WakerState)
  | err (current : WakerState)
  deriving DecidableEq, Repr

/-- One step of `change_state_smaller_eq(condition, target)`. -/
def changeStep (condition target state : WakerState) (pc : ChangePc) (spurious : Bool) :
    WakerState × ChangePc :=
  match pc with
  | .cas expected =>
    if state = expected ∧ spurious = false then (target, .ok expected)
    else if condition.toNat < state.toNat then (state, .err state)
    else (state, .cas state)
  | .ok previous => (state, .ok previous)
  | .err current => (state, .err current)

/-- One step of `abandon`; also of `close_wake`, which then wakes. -/
def abandonStep : WakerState → ChangePc → Bool → WakerState × ChangePc :=
  changeStep .waiting .closed

/-- `change_state_smaller_eq` starts from its condition, to save one load. -/
def abandonStart : ChangePc := .cas .waiting

theorem wakeBranch_cases (state : WakerState) :
    (wakeBranch state = .returned .skip ∧ state.isWoken = true) ∨
      (wakeBranch state = .store ∧ state = .waiting) ∨
      (wakeBranch state = .cas ∧ state = .init) := by
  cases state <;> simp [wakeBranch, WakerState.isWoken, WakerState.toNat]

/-- A `wake` that looks at the state leaves a woken one, goes on, or sets it from `Init`. -/
theorem wakeStep_cases {pc : WakePc} (hpc : pc = .load ∨ pc = .cas) (state : WakerState)
    (spurious : Bool) :
    (wakeStep state pc spurious = (state, .returned .skip) ∧ state.isWoken = true) ∨
      (∃ pc', wakeStep state pc spurious = (state, pc') ∧ (pc' = .store ∨ pc' = .cas)) ∨
      wakeStep state pc spurious = (.woken, .wakeByRef .next) := by
  have hbranch : (wakeBranch state = .returned .skip ∧ state.isWoken = true) ∨
      wakeBranch state = .store ∨ wakeBranch state = .cas :=
    (wakeBranch_cases state).imp_right (Or.imp And.left And.left)
  have hlook (h : wakeStep state pc spurious = (state, wakeBranch state)) :
      (wakeStep state pc spurious = (state, .returned .skip) ∧ state.isWoken = true) ∨
        (∃ pc', wakeStep state pc spurious = (state, pc') ∧ (pc' = .store ∨ pc' = .cas)) ∨
        wakeStep state pc spurious = (.woken, .wakeByRef .next) := by
    rcases hbranch with ⟨hskip, hwoken⟩ | hgo
    · exact .inl ⟨hskip ▸ h, hwoken⟩
    · exact .inr (.inl ⟨_, h, hgo⟩)
  rcases hpc with rfl | rfl
  · exact hlook rfl
  · by_cases hcas : state = .init ∧ spurious = false
    · exact .inr (.inr (if_pos hcas))
    · exact hlook (if_neg hcas)

/-- What one step of `abandon` does: it closes a state up to `Waiting`, fails on a later one, or
tries again. -/
theorem abandonStep_cases (state expected : WakerState) (spurious : Bool) :
    (abandonStep state (.cas expected) spurious = (.closed, .ok expected) ∧ state = expected) ∨
      (abandonStep state (.cas expected) spurious = (state, .err state) ∧ state.isWoken = true) ∨
      (abandonStep state (.cas expected) spurious = (state, .cas state) ∧
        state.isWoken = false) := by
  by_cases hcas : state = expected ∧ spurious = false
  · exact .inl ⟨by simp [abandonStep, changeStep, hcas], hcas.1⟩
  · cases state <;>
      simp [abandonStep, changeStep, hcas, WakerState.isWoken, WakerState.toNat]

end Waker

end Crossfire
