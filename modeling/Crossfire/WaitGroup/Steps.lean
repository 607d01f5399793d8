import Crossfire.WaitGroup.Model

/-!
# What one step of the wait group does

Inversion of the step functions: `OwnerStep`, `GuardStep` and `CallStep` have one constructor for
each branch, with what the branch has read. Every invariant is proved by cases on them.
-/

set_option autoImplicit false

namespace Crossfire.WaitGroup

open Lib.Interleaving

section Steps

variable {ι κ : Type} (b : Nat) (willWake : κ → κ → Bool)

/-- The owner is at the top of the loop of `try_set_waker`: it loads the state, or its
compare-exchange fails. -/
def OwnerPc.setting (w : Wait κ) : OwnerPc κ → Prop
  | .setLoad v | .setLock v _ => v = w
  | _ => False

/-- The owner is at the top of the loop of `destroy`. -/
def OwnerPc.destroying : OwnerPc κ → Prop
  | .destroyLoad | .destroyCas _ => True
  | _ => False

/-- Steps of the owner that change nothing but its program counter. -/
inductive OwnerMove (s : St ι κ) : OwnerPc κ → Prop
  | checkSet (T : Nat) (d w : Bool) (pc : s.owner = .check T d w true)
      (above : T < count b s.state) : OwnerMove s (.setLoad (.block T d w))
  | checkAgain (T : Nat) (d w r r' : Bool) (pc : s.owner = .check T d w r) :
      OwnerMove s (.check T d w r')
  | pollCheck (T : Nat) (k : κ) (pc : s.owner = .pollLoad T k) (above : T < count b s.state)
      (waker : hasWaker b s.state = true) : OwnerMove s (.pollCheck T k)
  | pollSet (T : Nat) (k : κ) (pc : s.owner = .pollLoad T k) :
      OwnerMove s (.setLoad (.poll T k))
  | setSpin (w : Wait κ) (pc : s.owner.setting w) : OwnerMove s (.setLoad w)
  | setLock (w : Wait κ) (pc : s.owner.setting w) (above : w.threshold < count b s.state)
      (unlocked : isLocked b s.state = false) (waker : hasWaker b s.state = true) :
      OwnerMove s (.setLock w s.state)
  | setFresh (w : Wait κ) (pc : s.owner.setting w) (above : w.threshold < count b s.state)
      (unlocked : isLocked b s.state = false) (waker : hasWaker b s.state = false) :
      OwnerMove s (.setFresh w)
  | park (T : Nat) (d : Bool) (pc : s.owner = .deadline T d) : OwnerMove s (.park T d)
  | parkReturn (T : Nat) (d r : Bool) (pc : s.owner = .park T d) :
      OwnerMove s (.check T d true r)
  | intoOk (pc : s.owner = .intoLoad) (last : count b s.state = 1) : OwnerMove s .intoFree
  | intoErr (pc : s.owner = .intoLoad) (more : count b s.state ≠ 1) : OwnerMove s .idle
  | destroy (pc : s.owner.destroying) (more : isLocked b s.state = true ∨ 1 < count b s.state) :
      OwnerMove s (.destroyCas s.state)
  | destroyLast (pc : s.owner.destroying) (unlocked : isLocked b s.state = false)
      (last : count b s.state ≤ 1) : OwnerMove s .destroyFree

/-- Returns of a wait that write nothing into the block. -/
inductive OwnerRet (s : St ι κ) : WaitRes → Prop
  | check (T : Nat) (d w r : Bool) (pc : s.owner = .check T d w r) (below : count b s.state ≤ T) :
      OwnerRet s .ready
  | pollLoad (T : Nat) (k : κ) (pc : s.owner = .pollLoad T k) (below : count b s.state ≤ T) :
      OwnerRet s .ready
  | pollCheck (T : Nat) (k : κ) (pc : s.owner = .pollCheck T k) (below : count b s.state ≤ T) :
      OwnerRet s .ready
  | pollPending (T : Nat) (k : κ) (pc : s.owner = .pollCheck T k) (above : T < count b s.state) :
      OwnerRet s .pending
  | set (w : Wait κ) (pc : s.owner.setting w) (below : count b s.state ≤ w.threshold) :
      OwnerRet s .ready
  | timeout (T : Nat) (pc : s.owner = .deadline T true) : OwnerRet s .timeout

/-- The steps of the owner. -/
inductive OwnerStep (s : St ι κ) : St ι κ → Prop
  | move (pc : OwnerPc κ) (h : OwnerMove b s pc) : OwnerStep s { s with owner := pc }
  | ret (r : WaitRes) (h : OwnerRet b s r) : OwnerStep s (s.ret b r)
  | skip (w : Wait κ) (pc : s.owner.setting w) (above : w.threshold < count b s.state)
      (waker : hasWaker b s.state = true) (may : w.maySkip = true) : OwnerStep s (s.setOk b w)
  | lock (w : Wait κ) (pc : s.owner = .setLock w s.state) :
      OwnerStep s { s with state := tryLock b s.state, owner := .setReplace w }
  | replace (w : Wait κ) (pc : s.owner = .setReplace w) :
      OwnerStep s { s.replace w with owner := .setXor w }
  | xor (w : Wait κ) (pc : s.owner = .setXor w) :
      OwnerStep s (setFinish b s w (s.state ^^^ wakerFlagMask b))
  | fresh (w : Wait κ) (pc : s.owner = .setFresh w) :
      OwnerStep s { s.replace w with owner := .setOr w }
  | or (w : Wait κ) (pc : s.owner = .setOr w) :
      OwnerStep s (setFinish b s w (s.state ||| wakerFlagSet b))
  | intoFree (pc : s.owner = .intoFree) :
      OwnerStep s { s with frees := s.frees + 1, slot := none, owner := .taken }
  | destroyCas (pc : s.owner = .destroyCas s.state) :
      OwnerStep s { s with state := s.state - 1, owner := .gone }
  | destroyFree (pc : s.owner = .destroyFree) :
      OwnerStep s { s with frees := s.frees + 1, slot := none, owner := .gone }

/-- The next try of `set_waker`. -/
theorem ownerStep_setNext {s : St ι κ} {w : Wait κ} (pc : s.owner.setting w) :
    OwnerStep b s (setNext b s w) := by
  unfold setNext
  split_ifs with hbelow hlocked hwaker hskip
  · exact .ret _ (.set w pc hbelow)
  · exact .move _ (.setSpin w pc)
  · exact .skip w pc (Nat.lt_of_not_le hbelow) hwaker hskip
  · exact .move _ (.setLock w pc (Nat.lt_of_not_le hbelow) (Bool.eq_false_iff.mpr hlocked) hwaker)
  · exact .move _ (.setFresh w pc (Nat.lt_of_not_le hbelow) (Bool.eq_false_iff.mpr hlocked)
      (Bool.eq_false_iff.mpr hwaker))

theorem ownerStep_destroyNext {s : St ι κ} (pc : s.owner.destroying) :
    OwnerStep b s { s with owner := destroyNext b s.state } := by
  unfold destroyNext
  split_ifs with hmore
  · exact .move _ (.destroy pc hmore)
  · rw [not_or] at hmore
    exact .move _ (.destroyLast pc (Bool.eq_false_iff.mpr hmore.1) (Nat.le_of_not_lt hmore.2))

/-- A step of the owner is one of `OwnerStep`. -/
theorem ownerStep_of_stepOwner {s t : St ι κ} {choice : Bool}
    (h : stepOwner b willWake s choice = some t) : OwnerStep b s t := by
  unfold stepOwner at h
  split at h
  case h_1 T d w r pc =>
    split_ifs at h with hbelow hr
    · cases h; exact .ret _ (.check T d w r pc hbelow)
    · cases h; exact .move _ (.checkSet T d w (hr ▸ pc) (Nat.lt_of_not_le hbelow))
    · cases h; exact .move _ (.checkAgain T d w r choice pc)
  case h_2 T k pc =>
    split_ifs at h with hbelow
    · cases h; exact .ret _ (.pollLoad T k pc hbelow)
    · split at h
      · split_ifs at h with hsame
        · cases h; exact .move _ (.pollCheck T k pc (Nat.lt_of_not_le hbelow) hsame.1)
        · cases h; exact .move _ (.pollSet T k pc)
      · cases h; exact .move _ (.pollSet T k pc)
  case h_3 T k pc =>
    split_ifs at h with hbelow
    · cases h; exact .ret _ (.pollCheck T k pc hbelow)
    · cases h; exact .ret _ (.pollPending T k pc (Nat.lt_of_not_le hbelow))
  case h_4 w pc => cases h; exact ownerStep_setNext b (by rw [pc]; rfl)
  case h_5 w state pc =>
    split_ifs at h with hcas
    · cases h
      obtain ⟨rfl, _⟩ := hcas
      exact .lock w pc
    · cases h; exact ownerStep_setNext b (by rw [pc]; rfl)
  case h_6 w pc => cases h; exact .replace w pc
  case h_7 w pc => cases h; exact .xor w pc
  case h_8 w pc => cases h; exact .fresh w pc
  case h_9 w pc => cases h; exact .or w pc
  case h_10 T d pc =>
    split_ifs at h with htimeout
    · rw [Bool.and_eq_true] at htimeout
      cases h
      exact .ret _ (.timeout T (htimeout.1 ▸ pc))
    · cases h; exact .move _ (.park T d pc)
  case h_11 T d pc => cases h; exact .move _ (.parkReturn T d choice pc)
  case h_12 pc =>
    split_ifs at h with hlast
    · cases h; exact .move _ (.intoOk pc hlast)
    · cases h; exact .move _ (.intoErr pc hlast)
  case h_13 pc => cases h; exact .intoFree pc
  case h_14 pc => cases h; exact ownerStep_destroyNext b (by rw [pc]; trivial)
  case h_15 state pc =>
    split_ifs at h with hcas
    · cases h
      obtain ⟨rfl, _⟩ := hcas
      exact .destroyCas pc
    · cases h; exact ownerStep_destroyNext b (by rw [pc]; trivial)
  case h_16 pc => cases h; exact .destroyFree pc
  all_goals cases h

variable [DecidableEq ι]

/-- The guard is at the top of the loop of `done`. -/
def GuardPc.finishing (T : Nat) : GuardPc κ → Prop
  | .load T' | .recheck T' _ | .cas T' _ => T' = T
  | _ => False

/-- The steps of the guard in slot `i`. -/
inductive GuardStep (s : St ι κ) (i : ι) : St ι κ → Prop
  | last (T : Nat) (pc : (s.guard i).finishing T) (last : isLast b s.state 1 = true) :
      GuardStep s i (s.setGuard i (.recheck T s.state))
  | more (T : Nat) (pc : (s.guard i).finishing T) (more : isLast b s.state 1 = false) :
      GuardStep s i (s.setGuard i (.cas T s.state))
  | underflow (T : Nat) (pc : (s.guard i).finishing T) (under : tryDone b s.state 1 T = none) :
      GuardStep s i (s.setGuard i .panicked)
  | confirmed (T : Nat) (pc : s.guard i = .recheck T s.state) :
      GuardStep s i (s.setGuard i (.free true))
  | lock (T new : Nat) (pc : s.guard i = .cas T s.state)
      (word : tryDone b s.state 1 T = some (true, new)) :
      GuardStep s i ({ s with state := new }.setGuard i .takeSlot)
  | leave (T new : Nat) (pc : s.guard i = .cas T s.state)
      (word : tryDone b s.state 1 T = some (false, new)) :
      GuardStep s i ({ s with state := new }.setGuard i .gone)
  | take (pc : s.guard i = .takeSlot) :
      GuardStep s i ({ s with slot := none }.setGuard i (.unlock s.slot))
  | unlockLast (w : Slot κ) (pc : s.guard i = .unlock w) (zero : count b s.state = 0) :
      GuardStep s i ({ s with state := s.state &&& countMask b }.setGuard i (.free false))
  | unlock (w : Slot κ) (pc : s.guard i = .unlock w) (nonzero : count b s.state ≠ 0) :
      GuardStep s i ({ s with state := s.state &&& countMask b }.setGuard i (afterUnlock w))
  | wake (number : Nat) (w : ThinWaker κ) (pc : s.guard i = .wake number w) :
      GuardStep s i ({ s with woken := number :: s.woken }.setGuard i .gone)
  | free (counted : Bool) (pc : s.guard i = .free counted) :
      GuardStep s i ({ s with frees := s.frees + 1, slot := none }.setGuard i .gone)

theorem guardStep_guardNext {s : St ι κ} {i : ι} {T : Nat} (pc : (s.guard i).finishing T) :
    GuardStep b s i (s.setGuard i (guardNext b T s.state)) := by
  unfold guardNext
  split_ifs with hlast hsome
  · exact .last T pc hlast
  · exact .more T pc (Bool.eq_false_iff.mpr hlast)
  · exact .underflow T pc (Option.not_isSome_iff_eq_none.mp hsome)

/-- A step of a guard is one of `GuardStep`. -/
theorem guardStep_of_stepGuard {s t : St ι κ} {i : ι} {spurious : Bool}
    (h : stepGuard b s i spurious = some t) : GuardStep b s i t := by
  unfold stepGuard at h
  split at h
  case h_1 T pc => cases h; exact guardStep_guardNext b (by rw [pc]; rfl)
  case h_2 T state pc =>
    split_ifs at h with heq
    · subst heq
      cases h
      exact .confirmed T pc
    · cases h; exact guardStep_guardNext b (by rw [pc]; rfl)
  case h_3 T state pc =>
    split_ifs at h with hcas
    · obtain ⟨rfl, _⟩ := hcas
      split at h
      · next new word => cases h; exact .lock T new pc word
      · next new word => cases h; exact .leave T new pc word
      · cases h
    · cases h; exact guardStep_guardNext b (by rw [pc]; rfl)
  case h_4 pc => cases h; exact .take pc
  case h_5 w pc =>
    cases h
    by_cases hzero : count b s.state = 0
    · rw [if_pos hzero]
      exact .unlockLast w pc hzero
    · rw [if_neg hzero]
      exact .unlock w pc hzero
  case h_6 number w pc => cases h; exact .wake number w pc
  case h_7 counted pc => cases h; exact .free counted pc
  all_goals cases h

/-- The first step of a call, and the calls that are one step. -/
inductive CallStep (s : St ι κ) : Act ι κ → St ι κ → Prop
  | addGuard (i : ι) (pc : s.owner = .idle) (slot : s.guard i = .absent)
      (fits : overflows b s.state = false) :
      CallStep s (.addGuard i)
        ({ s with state := fetchAdd b s.state 1 }.setGuard i (.alive s.threshold))
  | addPanic (i : ι) (pc : s.owner = .idle) (overflow : overflows b s.state = true) :
      CallStep s (.addGuard i) { s with state := fetchAdd b s.state 1, owner := .panicked }
  | setThreshold (T : Nat) (pc : s.owner = .idle) (future : s.future = none) :
      CallStep s (.setThreshold T) { s with threshold := T + 1 }
  | wait (d : Bool) (pc : s.owner = .idle) :
      CallStep s (.wait d) { s with owner := .check s.threshold d false false, pending := false }
  | waitAsync (pc : s.owner = .idle) :
      CallStep s .waitAsync { s with future := some (s.threshold, none), pending := false }
  | poll (k : κ) (T : Nat) (o : Option κ) (pc : s.owner = .idle) (future : s.future = some (T, o)) :
      CallStep s (.poll k) { s with owner := .pollLoad T k }
  | dropFuture (pc : s.owner = .idle) :
      CallStep s .dropFuture { s with future := none, pending := false }
  | tryIntoInner (pc : s.owner = .idle) : CallStep s .tryIntoInner { s with owner := .intoLoad }
  | drop (pc : s.owner = .idle) : CallStep s .drop { s with owner := .destroyLoad }
  | clone (i j : ι) (T : Nat) (source : s.guard i = .alive T) (slot : s.guard j = .absent)
      (fits : overflows b s.state = false) :
      CallStep s (.clone i j) ({ s with state := fetchAdd b s.state 1 }.setGuard j (.alive T))
  | clonePanic (i j : ι) (T : Nat) (source : s.guard i = .alive T)
      (overflow : overflows b s.state = true) :
      CallStep s (.clone i j) ({ s with state := fetchAdd b s.state 1 }.setGuard i .panicked)
  | dropGuard (i : ι) (T : Nat) (pc : s.guard i = .alive T) :
      CallStep s (.dropGuard i) (s.setGuard i (.load T))

/-- Every step is a step of the owner's call, a step of a guard's `done`, or the start of a call. -/
theorem step_cases {s t : St ι κ} {a : Act ι κ} (h : step b willWake s a = some t) :
    (∃ choice, a = .stepOwner choice ∧ OwnerStep b s t) ∨
      (∃ i spurious, a = .stepGuard i spurious ∧ GuardStep b s i t) ∨ CallStep b s a t := by
  cases a with
  | stepOwner choice => exact .inl ⟨choice, rfl, ownerStep_of_stepOwner b willWake h⟩
  | stepGuard i spurious => exact .inr (.inl ⟨i, spurious, rfl, guardStep_of_stepGuard b h⟩)
  | addGuard i =>
    simp only [step] at h
    split at h
    · next pc slot =>
        split_ifs at h with hover
        · cases h; exact .inr (.inr (.addPanic i pc hover))
        · cases h; exact .inr (.inr (.addGuard i pc slot (Bool.eq_false_iff.mpr hover)))
    · cases h
  | setThreshold T =>
    simp only [step] at h
    split at h
    · next pc future => cases h; exact .inr (.inr (.setThreshold T pc future))
    · cases h
  | wait d =>
    simp only [step] at h
    split at h
    · next pc => cases h; exact .inr (.inr (.wait d pc))
    · cases h
  | waitAsync =>
    simp only [step] at h
    split at h
    · next pc => cases h; exact .inr (.inr (.waitAsync pc))
    · cases h
  | poll k =>
    simp only [step] at h
    split at h
    · next T o pc future => cases h; exact .inr (.inr (.poll k T o pc future))
    · cases h
  | dropFuture =>
    simp only [step] at h
    split at h
    · next pc => cases h; exact .inr (.inr (.dropFuture pc))
    · cases h
  | tryIntoInner =>
    simp only [step] at h
    split at h
    · next pc _ => cases h; exact .inr (.inr (.tryIntoInner pc))
    · cases h
  | drop =>
    simp only [step] at h
    split at h
    · next pc _ => cases h; exact .inr (.inr (.drop pc))
    · cases h
  | clone i j =>
    simp only [step] at h
    split at h
    · next T source slot =>
        split_ifs at h with hover
        · cases h; exact .inr (.inr (.clonePanic i j T source hover))
        · cases h
          exact .inr (.inr (.clone i j T source slot (Bool.eq_false_iff.mpr hover)))
    · cases h
  | dropGuard i =>
    simp only [step] at h
    split at h
    · next T pc => cases h; exact .inr (.inr (.dropGuard i T pc))
    · cases h

end Steps

end Crossfire.WaitGroup
