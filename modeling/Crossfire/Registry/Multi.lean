import Crossfire.Waker.State
import Mathlib.Algebra.Group.Nat.Defs
import Mathlib.Data.List.Basic

/-!
# `RegistryMulti`: the queue of waiting wakers

`waker_registry.rs`: the locked queue of weak references to wakers, the selectors, the counter of
registrations and the flag byte that is read without the lock. Each definition is one section under
the lock. A weak reference upgrades when its waker is `alive`; `seq` and `state` read the atomics of
a waker.

The counter is kept without its wrap-around: the code's `u32` value is `u32` of it. A section keeps
the flag in step with the queue (`Mirrors`), and `clearWakers` loses, among the live wakers, only
those with the sequence number it looks for and those that were already woken
(`mem_clearQueue`).
-/

set_option autoImplicit false

namespace Crossfire.Registry

open Crossfire.Waker

/-- The `u32` value of a counter. -/
def u32 (n : Nat) : Nat := n % 2 ^ 32

/-- The flag byte: `MULTI_HAS_SELECT` and `MULTI_HAS_WAKER`. -/
structure Flags where
  select : Bool
  waker : Bool
  deriving DecidableEq, Repr

/-- `MULTI_EMPTY`. -/
def Flags.empty : Flags := ⟨false, false⟩

/-- What a registry reads of a waker. -/
structure WakerInner where
  state : WakerState
  seq : Nat
  /-- Some strong reference is left, so that a weak one upgrades. -/
  alive : Bool

/-- `SelectWakerWrapper`: the waker of a `Select` and the index it registered under. -/
structure SelectWakerWrapper where
  waker : Nat
  channelId : Nat
  deriving DecidableEq, Repr

/-- The flag byte and `RegistryMultiInner`. -/
structure RegistryMulti where
  state : Flags
  queue : List Nat
  selectors : List SelectWakerWrapper
  /-- Number of registrations so far. -/
  seq : Nat
  deriving DecidableEq, Repr

namespace RegistryMulti

/-- An empty registry. -/
def new : RegistryMulti := ⟨.empty, [], [], 0⟩

/-- `check_select`. -/
def checkSelect (r : RegistryMulti) : Flags := ⟨!r.selectors.isEmpty, false⟩

/-- `check_waker`. -/
def checkWaker (r : RegistryMulti) : Flags := ⟨false, !r.queue.isEmpty⟩

/-- `reg_waker`: the waker takes the next number and goes to the back of the queue. -/
def regWaker (r : RegistryMulti) (w : Nat) : RegistryMulti where
  state := if r.queue.isEmpty then ⟨r.checkSelect.select, true⟩ else r.state
  queue := r.queue ++ [w]
  selectors := r.selectors
  seq := r.seq + 1

/-- The loop of `pop_front` and `upgrade` in `pop_first` and `pop_again`. -/
def popLive (alive : Nat → Bool) : List Nat → Option Nat × List Nat
  | [] => (none, [])
  | w :: rest => if alive w then (some w, rest) else popLive alive rest

/-- The queue after that loop; the flag is stored when something was popped and nothing is left. -/
def popped (r : RegistryMulti) (rest : List Nat) : RegistryMulti :=
  if r.queue.isEmpty then r
  else { r with queue := rest, state := if rest.isEmpty then r.checkSelect else r.state }

/-- `pop_first` with the flag loaded before the lock: the waker and, if more are queued, the last
number given out. -/
def popFirst (r : RegistryMulti) (alive : Nat → Bool) (flag : Flags) :
    Option (Nat × Option Nat) × RegistryMulti :=
  if flag.waker then
    match popLive alive r.queue with
    | (some w, rest) => (some (w, if rest.isEmpty then none else some r.seq), r.popped rest)
    | (none, rest) => (none, r.popped rest)
  else (none, r)

/-- `pop_again`. -/
def popAgain (r : RegistryMulti) (alive : Nat → Bool) : Option Nat × RegistryMulti :=
  match popLive alive r.queue with
  | (o, rest) => (o, r.popped rest)

/-- The loop of `_clear_wakers` with the number `old` of the waker to remove. -/
def clearQueue (alive : Nat → Bool) (seq : Nat → Nat) (state : Nat → WakerState) (old : Nat)
    (oneshot : Bool) : List Nat → List Nat
  | [] => []
  | w :: rest =>
    if alive w then
      if seq w = old then rest
      else if old < seq w then w :: rest
      else if (state w).isWoken then
        if oneshot then rest else clearQueue alive seq state old oneshot rest
      else w :: rest
    else clearQueue alive seq state old oneshot rest

/-- `_clear_wakers` under the lock. -/
def clearWakers (r : RegistryMulti) (alive : Nat → Bool) (seq : Nat → Nat)
    (state : Nat → WakerState) (old : Nat) (oneshot : Bool) : RegistryMulti :=
  r.popped (clearQueue alive seq state old oneshot r.queue)

/-- `close` pops one entry. -/
def closePop (r : RegistryMulti) : RegistryMulti := { r with queue := r.queue.tail }

/-- The last store of `close`. -/
def closeStore (r : RegistryMulti) : RegistryMulti := { r with state := .empty }

/-- `reg_select_waker`. -/
def regSelectWaker (r : RegistryMulti) (channelId waker : Nat) : RegistryMulti :=
  { r with
    selectors := r.selectors ++ [⟨waker, channelId⟩]
    state := if r.selectors.isEmpty then ⟨true, r.checkWaker.waker⟩ else r.state }

/-- `cancel_select_waker`: the first entry of the waker goes. -/
def cancelSelectWaker (r : RegistryMulti) (waker : Nat) : RegistryMulti :=
  let selectors := r.selectors.eraseP fun entry => entry.waker = waker
  { r with selectors, state := if selectors.isEmpty then r.checkWaker else r.state }

/-- The flag byte says whether the queue is empty. -/
def Mirrors (r : RegistryMulti) : Prop := r.state.waker = !r.queue.isEmpty

/-- The flag byte says whether there are selectors. -/
def Selects (r : RegistryMulti) : Prop := r.state.select = !r.selectors.isEmpty

/-! ## What a section does to the queue -/

section Sections

variable {alive : Nat → Bool} {seq : Nat → Nat} {state : Nat → WakerState} {old : Nat}
  {oneshot : Bool} {q rest : List Nat} {w : Nat} {r : RegistryMulti}

/-- No entry was live. -/
theorem popLive_none (h : (popLive alive q).1 = none) :
    (popLive alive q).2 = [] ∧ ∀ w ∈ q, alive w = false := by
  induction q with
  | nil => exact ⟨rfl, nofun⟩
  | cons v rest ih =>
    by_cases hv : alive v = true
    · simp [popLive, hv] at h
    · simp only [popLive, hv] at h ⊢
      obtain ⟨hrest, hdead⟩ := ih h
      exact ⟨hrest, by simpa [hv] using hdead⟩

/-- The popped waker is alive, and what stood before it is not. -/
theorem popLive_some (h : (popLive alive q).1 = some w) :
    alive w = true ∧
      ∃ dead, q = dead ++ w :: (popLive alive q).2 ∧ ∀ v ∈ dead, alive v = false := by
  induction q with
  | nil => cases h
  | cons v rest ih =>
    by_cases hv : alive v = true
    · simp only [popLive, hv, if_true, Option.some.injEq] at h ⊢
      subst h
      exact ⟨hv, [], rfl, nofun⟩
    · simp only [popLive, hv] at h ⊢
      obtain ⟨hw, dead, hq, hdead⟩ := ih h
      refine ⟨hw, v :: dead, congrArg (v :: ·) hq, ?_⟩
      simpa [hv] using hdead

theorem popLive_sublist (alive : Nat → Bool) (q : List Nat) : (popLive alive q).2.Sublist q := by
  induction q with
  | nil => exact List.Sublist.refl _
  | cons v rest ih =>
    by_cases hv : alive v = true
    · simp [popLive, hv]
    · simp only [popLive, hv]
      exact ih.cons v

/-- Clearing keeps the order. -/
theorem clearQueue_sublist (alive : Nat → Bool) (seq : Nat → Nat) (state : Nat → WakerState)
    (old : Nat) (oneshot : Bool) (q : List Nat) :
    (clearQueue alive seq state old oneshot q).Sublist q := by
  induction q with
  | nil => exact List.Sublist.refl _
  | cons v rest ih =>
    have htail : rest.Sublist (v :: rest) := List.sublist_cons_self v rest
    unfold clearQueue
    split_ifs
    · exact htail
    · exact List.Sublist.refl _
    · exact htail
    · exact ih.cons v
    · exact List.Sublist.refl _
    · exact ih.cons v

/-- `clearWakers` keeps every live waker that has another number and was not woken. -/
theorem mem_clearQueue (hmem : w ∈ q) (halive : alive w = true) (hseq : seq w ≠ old)
    (hstate : (state w).isWoken = false) : w ∈ clearQueue alive seq state old oneshot q := by
  induction q with
  | nil => exact hmem
  | cons v rest ih =>
    rcases List.mem_cons.mp hmem with rfl | hrest
    · unfold clearQueue
      simp [halive, hseq, hstate]
    · unfold clearQueue
      split_ifs
      · exact hrest
      · exact List.mem_cons_of_mem v hrest
      · exact hrest
      · exact ih hrest
      · exact List.mem_cons_of_mem v hrest
      · exact ih hrest

@[simp] theorem popped_queue (hsub : rest.Sublist r.queue) : (r.popped rest).queue = rest := by
  by_cases hempty : r.queue.isEmpty
  · rw [popped, if_pos hempty]
    rw [List.isEmpty_iff] at hempty
    rw [hempty] at hsub ⊢
    exact (List.sublist_nil.mp hsub).symm
  · rw [popped, if_neg hempty]

@[simp] theorem popped_seq : (r.popped rest).seq = r.seq := by
  unfold popped
  split_ifs <;> rfl

/-- What the loop of `pop_first` and `pop_again` leaves when it finds a waker. -/
theorem popped_of_popLive_some (h : popLive alive r.queue = (some w, rest)) :
    ∃ dead, r.queue = dead ++ w :: (r.popped rest).queue ∧ ∀ v ∈ dead, alive v = false := by
  have hrest : (popLive alive r.queue).2 = rest := by rw [h]
  have hsub : rest.Sublist r.queue := hrest ▸ popLive_sublist alive r.queue
  obtain ⟨_, dead, hqueue, hdead⟩ := popLive_some (congrArg Prod.fst h)
  rw [hrest] at hqueue
  exact ⟨dead, by rw [popped_queue hsub]; exact hqueue, hdead⟩

/-- What it leaves when it finds none. -/
theorem popped_of_popLive_none (h : popLive alive r.queue = (none, rest)) :
    (r.popped rest).queue = [] ∧ ∀ v ∈ r.queue, alive v = false := by
  have hrest : (popLive alive r.queue).2 = rest := by rw [h]
  obtain ⟨hnil, hdead⟩ := popLive_none (congrArg Prod.fst h)
  rw [hrest] at hnil
  exact ⟨by rw [hnil, popped_queue (List.nil_sublist _)], hdead⟩

variable {flag : Flags} {r' : RegistryMulti}

/-- What `pop_first` takes. -/
theorem popFirst_some {o : Option Nat} (h : r.popFirst alive flag = (some (w, o), r')) :
    (∃ dead, r.queue = dead ++ w :: r'.queue ∧ ∀ v ∈ dead, alive v = false) ∧ r'.seq = r.seq ∧
      ((o = none ∧ r'.queue = []) ∨ o = some r.seq) := by
  unfold popFirst at h
  split_ifs at h
  · split at h
    · next v rest hpop =>
        cases h
        have hsub : rest.Sublist r.queue := by
          have := popLive_sublist alive r.queue
          rwa [hpop] at this
        refine ⟨popped_of_popLive_some hpop, popped_seq, ?_⟩
        split_ifs with hempty
        · exact .inl ⟨rfl, by rw [popped_queue hsub]; exact List.isEmpty_iff.mp hempty⟩
        · exact .inr rfl
    · cases h
  · cases h

/-- `pop_first` finds nobody alive. -/
theorem popFirst_none (h : r.popFirst alive flag = (none, r')) :
    (∃ dead, r.queue = dead ++ r'.queue ∧ ∀ v ∈ dead, alive v = false) ∧ r'.seq = r.seq ∧
      (flag.waker = true → ∀ v ∈ r.queue, alive v = false) := by
  unfold popFirst at h
  split_ifs at h with hflag
  · split at h
    · cases h
    · next rest hpop =>
        cases h
        obtain ⟨hnil, hdead⟩ := popped_of_popLive_none hpop
        exact ⟨⟨r.queue, by rw [hnil, List.append_nil], hdead⟩, popped_seq, fun _ => hdead⟩
  · cases h
    exact ⟨⟨[], rfl, nofun⟩, rfl, fun hwaker => absurd hwaker hflag⟩

theorem popAgain_some (h : r.popAgain alive = (some w, r')) :
    (∃ dead, r.queue = dead ++ w :: r'.queue ∧ ∀ v ∈ dead, alive v = false) ∧ r'.seq = r.seq := by
  unfold popAgain at h
  cases hpop : popLive alive r.queue with
  | mk o rest =>
    rw [hpop] at h
    cases h
    exact ⟨popped_of_popLive_some hpop, popped_seq⟩

/-- No entry was live. -/
theorem popAgain_none (h : r.popAgain alive = (none, r')) :
    r'.queue = [] ∧ (∀ v ∈ r.queue, alive v = false) ∧ r'.seq = r.seq := by
  unfold popAgain at h
  cases hpop : popLive alive r.queue with
  | mk o rest =>
    rw [hpop] at h
    cases h
    obtain ⟨hnil, hdead⟩ := popped_of_popLive_none hpop
    exact ⟨hnil, hdead, popped_seq⟩

theorem popFirst_alive {o : Option Nat}
    (h : r.popFirst alive flag = (some (w, o), r')) : alive w = true := by
  unfold popFirst at h
  split_ifs at h
  · split at h
    · next v rest hpop =>
        cases h
        exact (popLive_some (congrArg Prod.fst hpop)).1
    · cases h
  · cases h

theorem popAgain_alive (h : r.popAgain alive = (some w, r')) : alive w = true := by
  unfold popAgain at h
  cases hpop : popLive alive r.queue with
  | mk o rest =>
    rw [hpop] at h
    cases h
    exact (popLive_some (congrArg Prod.fst hpop)).1

theorem Mirrors.queue_eq_nil (h : r.Mirrors) (hempty : r.state = .empty) : r.queue = [] := by
  have hflag : r.state.waker = !r.queue.isEmpty := h
  rw [hempty] at hflag
  simpa [Flags.empty] using hflag

theorem Mirrors.popped (h : r.Mirrors) : (r.popped rest).Mirrors := by
  unfold RegistryMulti.popped
  split_ifs with hempty hrest
  · exact h
  · simp only [Mirrors, checkSelect, hrest]
    rfl
  · simp only [Mirrors] at h ⊢
    rw [h]
    simp [hempty, hrest]

theorem Mirrors.regWaker (h : r.Mirrors) (w : Nat) : (r.regWaker w).Mirrors := by
  by_cases hempty : r.queue.isEmpty
  · simp [Mirrors, RegistryMulti.regWaker, hempty]
  · simp only [Mirrors] at h
    simp [Mirrors, RegistryMulti.regWaker, h, hempty]

theorem Mirrors.regSelectWaker (h : r.Mirrors) (channelId waker : Nat) :
    (r.regSelectWaker channelId waker).Mirrors := by
  simp only [Mirrors, RegistryMulti.regSelectWaker]
  split_ifs
  · rfl
  · exact h

theorem Mirrors.cancelSelectWaker (h : r.Mirrors) (waker : Nat) :
    (r.cancelSelectWaker waker).Mirrors := by
  simp only [Mirrors, RegistryMulti.cancelSelectWaker]
  split_ifs
  · rfl
  · exact h

theorem Mirrors.popFirst (h : r.Mirrors) : (r.popFirst alive flag).2.Mirrors := by
  unfold RegistryMulti.popFirst
  split_ifs
  · split
    · exact h.popped
    · exact h.popped
  · exact h

theorem Mirrors.popAgain (h : r.Mirrors) : (r.popAgain alive).2.Mirrors := h.popped

/-! ## What a section does to the selectors -/

theorem Selects.popped (h : r.Selects) : (r.popped rest).Selects := by
  unfold RegistryMulti.popped
  split_ifs
  · exact h
  · rfl
  · exact h

theorem Selects.popFirst (h : r.Selects) : (r.popFirst alive flag).2.Selects := by
  unfold RegistryMulti.popFirst
  split_ifs
  · split
    · exact h.popped
    · exact h.popped
  · exact h

theorem Selects.popAgain (h : r.Selects) : (r.popAgain alive).2.Selects := h.popped

theorem Selects.regWaker (h : r.Selects) (w : Nat) : (r.regWaker w).Selects := by
  simp only [Selects, RegistryMulti.regWaker]
  split_ifs
  · rfl
  · exact h

theorem Selects.regSelectWaker (h : r.Selects) (channelId waker : Nat) :
    (r.regSelectWaker channelId waker).Selects := by
  by_cases hempty : r.selectors.isEmpty
  · simp [Selects, RegistryMulti.regSelectWaker, hempty]
  · simp only [Selects] at h
    simp [Selects, RegistryMulti.regSelectWaker, h, hempty]

/-- A select withdraws one entry. -/
theorem Selects.cancelSelectWaker (h : r.Selects) (waker : Nat) :
    (r.cancelSelectWaker waker).Selects := by
  simp only [Selects, RegistryMulti.cancelSelectWaker]
  split_ifs with hempty
  · rw [hempty]
    rfl
  · -- an entry is left, so there was one before
    have hsome : r.selectors.isEmpty = false := by
      rw [List.isEmpty_eq_false_iff]
      intro hnil
      exact hempty (by rw [hnil]; rfl)
    rw [h, hsome, Bool.eq_false_iff.mpr hempty]

end Sections

end RegistryMulti

end Crossfire.Registry
