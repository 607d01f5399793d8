import Crossfire.Lib.Interleaving
import Crossfire.Waker.State

/-!
# A waiter that gives up against the thread that wakes it

One registration of a `WakerInner`: the owner runs `commit_waiting` and later `abandon`, the thread
that popped the waker from the registry runs `wake`. `wake` loads the state and, on `Waiting`,
stores `Woken` without a compare-exchange.

An `abandon` that falls between that load and that store returns `Ok(())` while `wake` returns
`Woken`: the owner leaves without firing another waiter and the registry stops looking for one
(`abandon_between_load_and_store`). `wake_not_swallowed` says that this window is the only way to
lose the wake-up.
-/

set_option autoImplicit false

namespace Crossfire.Waker

open Lib.Interleaving

/-- Program counter of the owner. -/
inductive OwnerPc
  /-- Registered; `commit_waiting` has not run. -/
  | registered
  /-- `commit_waiting` returned this state. -/
  | committed (state : WakerState)
  /-- Inside `abandon`, or returned from it. -/
  | abandon (pc : ChangePc)
  deriving DecidableEq, Repr

/-- The waker, its owner and the thread that popped it. -/
structure Race where
  state : WakerState
  owner : OwnerPc
  /-- `none` before `wake` is called. -/
  waker : Option WakePc
  deriving DecidableEq, Repr

/-- The steps of the owner and of a waking thread. -/
inductive RaceAct
  | commit
  | callAbandon
  | stepAbandon (spurious : Bool)
  | callWake
  | stepWake (spurious : Bool)
  deriving DecidableEq, Repr

/-- One atomic operation of one of the two threads. -/
def raceStep (s : Race) : RaceAct → Option Race
  | .commit =>
    match s.owner with
    | .registered =>
      let (state, result) := commitWaiting s.state
      some { s with state := state, owner := .committed result }
    | _ => none
  | .callAbandon =>
    match s.owner with
    | .committed _ => some { s with owner := .abandon abandonStart }
    | _ => none
  | .stepAbandon spurious =>
    match s.owner with
    | .abandon (.cas expected) =>
      let (state, pc) := abandonStep s.state (.cas expected) spurious
      some { s with state := state, owner := .abandon pc }
    | _ => none
  | .callWake =>
    match s.waker with
    | none => some { s with waker := some .load }
    | some _ => none
  | .stepWake spurious =>
    match s.waker with
    | none | some (.returned _) => none
    | some pc =>
      let (state, pc) := wakeStep s.state pc spurious
      some { s with state := state, waker := some pc }

/-- A registered waker, and the race for it. -/
def race : System Race RaceAct where
  init s := s = ⟨.init, .registered, none⟩
  step := raceStep

/-- The compare-exchange of `abandon` that the owner is about to run succeeds. -/
def abandonSucceeds (s : Race) (spurious : Bool) : Bool :=
  match s.owner with
  | .abandon (.cas expected) => decide (s.state = expected ∧ spurious = false)
  | _ => false

/-- The step is not a successful compare-exchange of `abandon` between the load of `Waiting` and the
store of `Woken` in `wake`. -/
def outsideWindow (s : Race) : RaceAct → Prop
  | .stepAbandon spurious => ¬ (s.waker = some .store ∧ abandonSucceeds s spurious = true)
  | _ => True

instance (s : Race) (a : RaceAct) : Decidable (outsideWindow s a) :=
  match a with
  | .stepAbandon spurious =>
    inferInstanceAs (Decidable (¬ (s.waker = some .store ∧ abandonSucceeds s spurious = true)))
  | .commit | .callAbandon | .callWake | .stepWake _ => inferInstanceAs (Decidable True)

/-! ## What the two threads know -/

/-- What the owner's position says about the state. -/
def OwnerFacts (state : WakerState) : OwnerPc → Prop
  | .abandon (.ok _) => state = .closed
  | .abandon (.err e) => e = .woken ∧ state = .woken
  | .abandon (.cas expected) => expected.isWoken = false ∧ state ≠ .closed ∧ state ≠ .done
  | .registered | .committed _ => state ≠ .closed ∧ state ≠ .done

/-- What the waking thread's position says about the state. -/
def WakerFacts (state : WakerState) : Option WakePc → Prop
  | some .store => state = .waiting
  | some (.wakeByRef .woken) | some (.returned .woken) => state = .woken
  | _ => True

variable {state : WakerState}

/-- The owner is not past its `abandon`. -/
theorem OwnerFacts.waking {pc : OwnerPc} (h : OwnerFacts state pc)
    (hstate : state.isWoken = false) : OwnerFacts .woken pc := by
  cases pc with
  | registered | committed => exact ⟨nofun, nofun⟩
  | abandon pc =>
    cases pc with
    | cas expected => exact ⟨h.1, nofun, nofun⟩
    | ok previous =>
      rw [show state = .closed from h] at hstate
      exact absurd hstate (by decide)
    | err e =>
      rw [h.2] at hstate
      exact absurd hstate (by decide)

theorem wakerFacts_branch (state : WakerState) : WakerFacts state (some (wakeBranch state)) := by
  rcases wakeBranch_cases state with ⟨h, _⟩ | ⟨h, hstate⟩ | ⟨h, _⟩
  · rw [h]
    trivial
  · rw [h]
    exact hstate
  · rw [h]
    trivial

/-- The facts survive a step of `wake`. -/
theorem facts_wakeStep {owner : OwnerPc} {pc : WakePc} (spurious : Bool)
    (howner : OwnerFacts state owner) (hwaker : WakerFacts state (some pc)) :
    OwnerFacts (wakeStep state pc spurious).1 owner ∧
      WakerFacts (wakeStep state pc spurious).1 (some (wakeStep state pc spurious).2) := by
  cases pc with
  | load => exact ⟨howner, wakerFacts_branch state⟩
  | store =>
    -- the plain store: nobody has moved the state since the load saw `Waiting`
    rw [show state = .waiting from hwaker] at howner
    exact ⟨howner.waking rfl, rfl⟩
  | cas =>
    by_cases hcas : state = .init ∧ spurious = false
    · rw [hcas.1] at howner
      rw [wakeStep, if_pos hcas]
      exact ⟨howner.waking rfl, trivial⟩
    · rw [wakeStep, if_neg hcas]
      exact ⟨howner, wakerFacts_branch state⟩
  | wakeByRef result =>
    refine ⟨howner, ?_⟩
    cases result with
    | woken => exact hwaker
    | next | skip => trivial
  | returned result => exact ⟨howner, hwaker⟩

/-- The facts survive a step of `abandon` outside the window. -/
theorem facts_abandonStep {state expected : WakerState} {waker : Option WakePc} (spurious : Bool)
    (howner : OwnerFacts state (.abandon (.cas expected))) (hwaker : WakerFacts state waker)
    (hok : ¬ (waker = some .store ∧ state = expected ∧ spurious = false)) :
    OwnerFacts (abandonStep state (.cas expected) spurious).1
        (.abandon (abandonStep state (.cas expected) spurious).2) ∧
      WakerFacts (abandonStep state (.cas expected) spurious).1 waker := by
  obtain ⟨hexp, hclosed, hdone⟩ := howner
  by_cases hcas : state = expected ∧ spurious = false
  · -- the state is closed; the waking thread has not stored and will not
    have hwake : ∀ new, WakerFacts new waker := by
      intro new
      cases waker with
      | none => trivial
      | some pc =>
        cases pc with
        | store => exact absurd ⟨rfl, hcas⟩ hok
        | wakeByRef r | returned r =>
          cases r with
          | woken =>
            rw [← hcas.1, show state = .woken from hwaker] at hexp
            exact absurd hexp (by decide)
          | next | skip => trivial
        | load | cas => trivial
    have hstep : abandonStep state (.cas expected) spurious = (.closed, .ok expected) := by
      simp [abandonStep, changeStep, hcas]
    rw [hstep]
    exact ⟨rfl, hwake _⟩
  · rcases abandonStep_cases state expected spurious with ⟨h, _⟩ | ⟨h, hwoken⟩ | ⟨h, hnot⟩
    · simp only [abandonStep, changeStep, if_neg hcas] at h
      split_ifs at h <;> cases h
    · rw [h]
      refine ⟨?_, hwaker⟩
      have hstate : state = .woken := by
        cases state <;> first | rfl | contradiction
      exact ⟨hstate, hstate⟩
    · rw [h]
      exact ⟨⟨hnot, hclosed, hdone⟩, hwaker⟩

/-- The owner commits. -/
theorem facts_commit {waker : Option WakePc}
    (howner : OwnerFacts state .registered) (hwaker : WakerFacts state waker)
    (result : WakerState) :
    OwnerFacts (commitWaiting state).1 (.committed result) ∧
      WakerFacts (commitWaiting state).1 waker := by
  cases state with
  | init =>
    refine ⟨⟨nofun, nofun⟩, ?_⟩
    cases waker with
    | none => trivial
    | some pc =>
      cases pc with
      | store => cases hwaker
      | wakeByRef r | returned r => cases r <;> trivial
      | load | cas => trivial
  | waiting | woken => exact ⟨⟨nofun, nofun⟩, hwaker⟩
  | closed => exact absurd rfl howner.1
  | done => exact absurd rfl howner.2

/-- **The facts hold in every run.** -/
theorem facts_of_reach {s : Race} (hs : Reach race outsideWindow s) :
    OwnerFacts s.state s.owner ∧ WakerFacts s.state s.waker := by
  refine hs.invariant (P := fun s => OwnerFacts s.state s.owner ∧ WakerFacts s.state s.waker) ?_ ?_
  · rintro _ rfl
    exact ⟨⟨nofun, nofun⟩, trivial⟩
  · rintro s a t ⟨howner, hwaker⟩ hok hstep
    cases a with
    | commit =>
      simp only [race, raceStep] at hstep
      split at hstep
      · next pc =>
          cases hstep
          rw [pc] at howner
          exact facts_commit howner hwaker _
      · cases hstep
    | callAbandon =>
      simp only [race, raceStep] at hstep
      split at hstep
      · next pc =>
          cases hstep
          rw [pc] at howner
          exact ⟨⟨by decide, howner⟩, hwaker⟩
      · cases hstep
    | stepAbandon spurious =>
      simp only [race, raceStep] at hstep
      split at hstep
      · next expected pc =>
          cases hstep
          rw [pc] at howner
          -- `outsideWindow` excludes the exchange that would break the facts
          refine facts_abandonStep spurious howner hwaker fun hwin => hok ⟨hwin.1, ?_⟩
          simp only [abandonSucceeds, pc]
          exact decide_eq_true hwin.2
      · cases hstep
    | callWake =>
      simp only [race, raceStep] at hstep
      split at hstep
      · cases hstep
        exact ⟨howner, trivial⟩
      · cases hstep
    | stepWake spurious =>
      simp only [race, raceStep] at hstep
      split at hstep
      · cases hstep
      · cases hstep
      · next pc _ hpc =>
          cases hstep
          rw [hpc] at hwaker
          exact facts_wakeStep spurious howner hwaker

/-- In every run in which no `abandon` succeeds between the load of `Waiting` and the store of
`Woken`: an `abandon` that returned `Ok` excludes a `wake` that returned `Woken`, and after such a
`wake` an `abandon` returned `Err(Woken)`. -/
theorem wake_not_swallowed {s : Race} (hs : Reach race outsideWindow s) :
    (∀ previous, s.owner = .abandon (.ok previous) → s.waker ≠ some (.returned .woken)) ∧
      (s.waker = some (.returned .woken) →
        (∀ previous, s.owner ≠ .abandon (.ok previous)) ∧
          ∀ current, s.owner = .abandon (.err current) → current = .woken) := by
  obtain ⟨howner, hwaker⟩ := facts_of_reach hs
  have hexcl : ∀ previous, s.owner = .abandon (.ok previous) →
      s.waker ≠ some (.returned .woken) := by
    intro previous hpc hret
    rw [hpc] at howner
    rw [hret] at hwaker
    exact absurd ((show s.state = .closed from howner).symm.trans hwaker) (by decide)
  refine ⟨hexcl, fun hret => ⟨fun previous hpc => hexcl previous hpc hret, ?_⟩⟩
  intro current hpc
  rw [hpc] at howner
  exact howner.1

/-- `wake` finishes, then the owner abandons and is told. -/
theorem wake_not_swallowed_after :
    ∃ s, Reach race outsideWindow s ∧ s.waker = some (.returned .woken) ∧
      ∃ current, s.owner = .abandon (.err current) ∧ current = .woken := by
  have hnew : Reach race outsideWindow ⟨.init, .registered, none⟩ := .init rfl
  obtain ⟨s, hs, hret, hpc⟩ := hnew.exists_of_run
    [.commit, .callWake, .stepWake false, .stepWake false, .stepWake false, .callAbandon,
      .stepAbandon false]
    (fun s => s.waker = some (.returned .woken) ∧ s.owner = .abandon (.err .woken))
    (by decide)
  exact ⟨s, hs, hret, _, hpc, ((wake_not_swallowed hs).2 hret).2 _ hpc⟩

/-- `wake` has loaded `Waiting`; `abandon` closes the waker and returns `Ok(())`; `wake` stores
`Woken` over it and returns `Woken`. -/
theorem abandon_between_load_and_store :
    ∃ s, Reachable race s ∧ s.owner = .abandon (.ok .waiting) ∧
      s.waker = some (.returned .woken) := by
  have hnew : Reachable race ⟨.init, .registered, none⟩ := .init rfl
  exact hnew.exists_of_run
    [.commit, .callWake, .stepWake false, .callAbandon, .stepAbandon false, .stepWake false,
      .stepWake false] _ (by decide)

end Crossfire.Waker
