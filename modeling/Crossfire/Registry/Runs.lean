import Crossfire.Lib.Interleaving
import Crossfire.Registry.Multi

/-!
# Runs of a `RegistryMulti`

`waker_registry.rs`: a registry under every operation that has the lock, in any order. One step is
one section under the lock; `close` pops and wakes entry by entry while it holds the lock, so its
section is split and `locked` says that it is inside. The flag byte that `pop_first` loads before it
takes the lock is an argument of its section and may be any byte. The wakers change their states and
are dropped at any time, also while `close` is running.

The seven operations write the flag byte with absolute stores, each only on the branches where it
sees a list become empty or stop being empty. `flags_mirror` says that the byte is right whenever
the lock is free.
-/

set_option autoImplicit false

namespace Crossfire.Registry.Runs

open Lib.Interleaving Crossfire.Waker

/-- The registry and its wakers. -/
structure St where
  reg : RegistryMulti
  waker : Nat → WakerInner
  /-- `close` holds the lock. -/
  locked : Bool
  /-- `close` was called. -/
  closed : Bool

/-- `RegistryMulti::new`. -/
def St.new : St where
  reg := .new
  waker _ := ⟨.init, 0, true⟩
  locked := false
  closed := false

/-- The operations on a registry. -/
inductive Act
  | regWaker (w : Nat)
  | regSelectWaker (channelId waker : Nat)
  | cancelSelectWaker (waker : Nat)
  /-- `pop_first` with the flag byte it loaded. -/
  | popFirst (flag : Flags)
  | popAgain
  /-- `_clear_wakers` for waker `w`. -/
  | clearWakers (w : Nat) (oneshot : Bool)
  /-- `close` takes the lock. -/
  | closeLock
  | closePop
  /-- The last store of `close`, and the end of its section. -/
  | closeStore
  | setState (w : Nat) (state : WakerState)
  | dropWaker (w : Nat)

/-- The waker `w` has not been dropped. -/
def St.alive (s : St) (w : Nat) : Bool := (s.waker w).alive

/-- The waker `w` becomes `inner`. -/
def St.setWaker (s : St) (w : Nat) (inner : WakerInner) : St :=
  { s with waker := Function.update s.waker w inner }

/-- One section under the lock. -/
def St.underLock (s : St) (r : RegistryMulti) : Option St :=
  if s.locked then none else some { s with reg := r }

/-- One action; `none` if it is not possible now. -/
def step (s : St) : Act → Option St
  | .regWaker w =>
    (s.setWaker w { s.waker w with seq := s.reg.seq + 1 }).underLock (s.reg.regWaker w)
  | .regSelectWaker channelId waker => s.underLock (s.reg.regSelectWaker channelId waker)
  | .cancelSelectWaker waker => s.underLock (s.reg.cancelSelectWaker waker)
  | .popFirst flag => s.underLock (s.reg.popFirst s.alive flag).2
  | .popAgain => s.underLock (s.reg.popAgain s.alive).2
  | .clearWakers w oneshot =>
    s.underLock (s.reg.clearWakers s.alive (fun v => u32 (s.waker v).seq)
      (fun v => (s.waker v).state) (u32 (s.waker w).seq) oneshot)
  | .closeLock => if s.locked then none else some { s with locked := true, closed := true }
  | .closePop =>
    if s.locked ∧ s.reg.queue ≠ [] then some { s with reg := s.reg.closePop } else none
  | .closeStore =>
    if s.locked ∧ s.reg.queue = [] then
      some { s with reg := s.reg.closeStore, locked := false }
    else none
  | .setState w state => some (s.setWaker w { s.waker w with state := state })
  | .dropWaker w => some (s.setWaker w { s.waker w with alive := false })

/-- An empty registry, and its operations. -/
def system : System St Act where
  init s := s = .new
  step := step

/-! ## The flag byte -/

/-- What the flag byte says whenever the lock is free. -/
structure Right (s : St) : Prop where
  waker : s.locked = false → s.reg.Mirrors
  /-- The last store of `close` drops the bit of the selectors. -/
  select : s.closed = false → s.reg.Selects
  /-- The lock is held by `close` only. -/
  locked : s.locked = true → s.closed = true

section Steps

variable {s t : St} {r : RegistryMulti}

/-- One section under the lock. -/
theorem Right.underLock (h : Right s) (hstep : s.underLock r = some t)
    (hwaker : s.reg.Mirrors → r.Mirrors) (hselect : s.reg.Selects → r.Selects) : Right t := by
  unfold St.underLock at hstep
  split_ifs at hstep with hlocked
  cases hstep
  exact ⟨fun h' => hwaker (h.waker h'), fun h' => hselect (h.select h'), h.locked⟩

/-- The wakers do not matter. -/
theorem Right.setWaker (h : Right s) (w : Nat) (inner : WakerInner) :
    Right (s.setWaker w inner) :=
  ⟨h.waker, h.select, h.locked⟩

/-- **Every operation keeps the flags right.** -/
theorem Right.step {a : Act} (h : Right s) (hstep : step s a = some t) : Right t := by
  cases a with
  | regWaker w =>
    exact (h.setWaker w _).underLock hstep (·.regWaker w) (·.regWaker w)
  | regSelectWaker channelId waker =>
    exact h.underLock hstep (·.regSelectWaker channelId waker) (·.regSelectWaker channelId waker)
  | cancelSelectWaker waker =>
    exact h.underLock hstep (·.cancelSelectWaker waker) (·.cancelSelectWaker waker)
  | popFirst flag => exact h.underLock hstep (·.popFirst) (·.popFirst)
  | popAgain => exact h.underLock hstep (·.popAgain) (·.popAgain)
  | clearWakers w oneshot => exact h.underLock hstep (·.popped) (·.popped)
  | closeLock =>
    simp only [Runs.step] at hstep
    split_ifs at hstep
    cases hstep
    exact ⟨nofun, nofun, fun _ => rfl⟩
  | closePop =>
    simp only [Runs.step] at hstep
    split_ifs at hstep with hcond
    cases hstep
    -- the byte is stale while `close` drains the queue, but the lock is held
    have hclosed : s.closed = true := h.locked hcond.1
    exact ⟨fun h' => by simp [hcond.1] at h', fun h' => by simp [hclosed] at h',
      fun _ => hclosed⟩
  | closeStore =>
    simp only [Runs.step] at hstep
    split_ifs at hstep with hcond
    cases hstep
    have hclosed : s.closed = true := h.locked hcond.1
    refine ⟨fun _ => ?_, fun h' => by simp [hclosed] at h', nofun⟩
    simp [RegistryMulti.Mirrors, RegistryMulti.closeStore, Flags.empty, hcond.2]
  | setState w | dropWaker w =>
    cases hstep
    exact h.setWaker w _

end Steps

theorem right_of_reachable {s : St} (h : Reachable system s) : Right s := by
  refine h.invariant ?_ fun s a t hs _ hstep => hs.step hstep
  rintro s rfl
  exact ⟨fun _ => rfl, fun _ => rfl, nofun⟩

/-- Whenever the lock is free, `MULTI_HAS_WAKER` is set exactly when a waker is queued and, before
`close`, `MULTI_HAS_SELECT` exactly when a selector is registered. -/
theorem flags_mirror {s : St} (h : Reachable system s) (hfree : s.locked = false) :
    (s.reg.state.waker = true ↔ s.reg.queue ≠ []) ∧
      (s.closed = false → (s.reg.state.select = true ↔ s.reg.selectors ≠ [])) := by
  have hright := right_of_reachable h
  have hwaker : s.reg.state.waker = !s.reg.queue.isEmpty := hright.waker hfree
  refine ⟨?_, fun hopen => ?_⟩
  · rw [hwaker]
    simp
  · have hselect : s.reg.state.select = !s.reg.selectors.isEmpty := hright.select hopen
    rw [hselect]
    simp

/-- A dead entry is popped with a stale byte that has both bits; a selector is left. -/
theorem flags_mirror_dead :
    ∃ s, Reachable system s ∧ s.locked = false ∧ s.closed = false ∧ s.reg.state = ⟨true, false⟩ ∧
      (s.reg.state.waker = true ↔ s.reg.queue ≠ []) ∧
      (s.closed = false → (s.reg.state.select = true ↔ s.reg.selectors ≠ [])) := by
  have hnew : Reachable system St.new := .init rfl
  obtain ⟨s, hs, hfree, hopen, hstate⟩ := hnew.exists_of_run
    [.regWaker 5, .regSelectWaker 0 1, .dropWaker 5, .popFirst ⟨true, true⟩]
    (fun s => s.locked = false ∧ s.closed = false ∧ s.reg.state = ⟨true, false⟩)
    (by decide +kernel)
  exact ⟨s, hs, hfree, hopen, hstate, flags_mirror hs hfree⟩

end Crossfire.Registry.Runs
