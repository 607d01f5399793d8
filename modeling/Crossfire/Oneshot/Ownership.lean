import Crossfire.Oneshot.Model
import Mathlib.Data.Multiset.AddSub

/-!
# Who owns the oneshot block

The state byte decides which side frees the block. `Word` lists the bytes that each stage of the
sender allows while the receiver holds the block and after it gave the block up; `inv_of_reach`
says that every interleaving stays inside that table. `freed_once` reads off that the block is freed
by exactly one side after the other side's last access, that the value is returned or dropped
exactly once, and that no panic branch is reached.
-/

set_option autoImplicit false

namespace Crossfire.Oneshot

open Lib.Interleaving

variable {τ κ : Type} {willWake : κ → κ → Bool} {s t : St τ κ}

/-- How far the sender is with the block. -/
inductive Stage
  /-- Before the compare-exchange that sets `LOCK_FLAG`. -/
  | unlocked
  /-- Between that compare-exchange and the second one. -/
  | waking (exist : Bool)
  /-- About to free the block. -/
  | freeing
  | gone
  | panicked
  deriving DecidableEq

/-- How far the sender is with the block. -/
def TxPc.stage : TxPc τ κ → Stage
  | .alive | .sendValue _ | .notify _ _ => .unlocked
  | .readWaker exist | .wake exist _ | .finish exist => .waking exist
  | .free => .freeing
  | .gone => .gone
  | .panicked => .panicked

/-- The receiver has not given up the block: some later step of it may access the block. -/
def RxPc.holds : RxPc τ κ → Bool
  | .idle live => live
  | .gone | .panicked => false
  | _ => true

/-- The calls that leave the receiver usable: what the slot holds was put there by `poll`. -/
def RxPc.polls : RxPc τ κ → Bool
  | .idle live => live
  | .tryRecv | .poll _ | .pollSlot _ | .pollCancel _ => true
  | .setWaker (.poll _) | .setWakerCas (.poll _) => true
  | _ => false

/-- The byte after the sender locked a state with a waker. -/
def lockedState (exist : Bool) : UInt8 := lockFlag ||| wakerSetFlag ||| existBit exist

/-- The byte after the sender closed first. -/
def closedState (exist : Bool) : UInt8 := closeFlag ||| lockFlag ||| existBit exist

theorem notifyState_zero (exist : Bool) : notifyState exist 0 = closedState exist := by
  cases exist <;> rfl

theorem closedState_wakerSet (exist : Bool) : hasFlag (closedState exist) wakerSetFlag = false := by
  cases exist <;> rfl

theorem lockedState_wakerSet (exist : Bool) : hasFlag (lockedState exist) wakerSetFlag = true := by
  cases exist <;> rfl

/-- The state byte and the number of frees, by the stage of the sender and by whether the receiver
still holds the block. -/
inductive Word : Stage → Bool → UInt8 → Nat → Prop
  | fresh : Word .unlocked true 0 0
  | waker : Word .unlocked true wakerSetFlag 0
  | dropped : Word .unlocked false closeFlag 0
  | droppedWaker : Word .unlocked false (wakerSetFlag ||| closeFlag) 0
  | waking (exist : Bool) : Word (.waking exist) true (lockedState exist) 0
  | wakingDropped (exist : Bool) : Word (.waking exist) false (lockedState exist ||| closeFlag) 0
  | freeing (state : UInt8) : Word .freeing false state 0
  | closed (exist : Bool) : Word .gone true (closedState exist) 0
  | freed (state : UInt8) : Word .gone false state 1

namespace Word

variable {g : Stage} {holds : Bool} {state : UInt8} {n : Nat}

/-- While the receiver holds the block, a close flag means that the sender is gone. -/
theorem gone_of_close (h : Word g true state n) (hclose : hasFlag state closeFlag = true) :
    g = .gone := by
  cases h with
  | fresh | waker => cases hclose
  | waking exist => cases exist <;> cases hclose
  | closed => rfl

theorem frees_of_holds (h : Word g true state n) : n = 0 := by
  cases h <;> rfl

theorem frees_of_ne_gone (h : Word g holds state n) (hg : g ≠ .gone) : n = 0 := by
  cases h with
  | freed => exact absurd rfl hg
  | _ => rfl

theorem frees_of_released (h : Word .gone false state n) : n = 1 := by
  cases h
  rfl

/-- The receiver closes first. -/
theorem release (h : Word g true state n) (hclose : hasFlag state closeFlag = false) :
    Word g false (state ||| closeFlag) n := by
  cases h with
  | fresh => exact .dropped
  | waker => exact .droppedWaker
  | waking exist => exact .wakingDropped exist
  | closed exist => cases exist <;> cases hclose

/-- Setting the close flag changes no other flag. -/
theorem flag_or_close (h : Word g true state n) (flag : UInt8)
    (hflag : flag ∈ [lockFlag, wakerSetFlag, existFlag]) :
    hasFlag (state ||| closeFlag) flag = hasFlag state flag := by
  simp only [List.mem_cons, List.not_mem_nil, or_false] at hflag
  rcases hflag with rfl | rfl | rfl
  all_goals
    cases h with
    | fresh | waker => rfl
    | waking exist | closed exist => cases exist <;> rfl

/-- The receiver gives up with `cancel_waker(true)`. -/
theorem timeout (h : Word g true wakerSetFlag n) : Word g false closeFlag n := by
  generalize hw : wakerSetFlag = w at h
  cases h with
  | fresh => cases hw
  | waker => exact .dropped
  | waking exist | closed exist => cases exist <;> cases hw

theorem unlocked_of_state (h : Word g true state n) (hstate : state = 0 ∨ state = wakerSetFlag) :
    g = .unlocked := by
  cases h with
  | fresh | waker => rfl
  | waking exist | closed exist => cases exist <;> rcases hstate with h | h <;> cases h

/-- The receiver sets or clears the waker flag of an unlocked byte. -/
theorem swap {new : UInt8} (h : Word g true state n) (hold : state = 0 ∨ state = wakerSetFlag)
    (hnew : new = 0 ∨ new = wakerSetFlag) : Word g true new n := by
  obtain rfl := h.unlocked_of_state hold
  obtain rfl := h.frees_of_holds
  rcases hnew with rfl | rfl
  · exact .fresh
  · exact .waker

/-- The receiver frees the block of a sender that is gone. -/
theorem free (h : Word .gone true state n) : Word .gone false state (n + 1) := by
  cases h with
  | closed exist => exact .freed _

/-- The receiver's `drop` sets a close flag that the sender may already have set. -/
theorem dropClose (h : Word g true state n) (hclose : hasFlag state closeFlag = true) :
    Word g true (state ||| closeFlag) n := by
  obtain rfl := h.gone_of_close hclose
  cases h with
  | closed exist =>
    have hor : closedState exist ||| closeFlag = closedState exist := by cases exist <;> rfl
    rw [hor]
    exact .closed exist

/-- The sender's first compare-exchange. -/
theorem notify (exist : Bool) (h : Word .unlocked holds state n)
    (hold : state = 0 ∨ state = wakerSetFlag) :
    Word (if state = 0 then .gone else .waking exist) holds (notifyState exist state) n := by
  cases h with
  | fresh =>
    rw [notifyState_zero]
    exact .closed exist
  | waker => exact .waking exist
  | dropped | droppedWaker => rcases hold with h | h <;> cases h

/-- A failed first compare-exchange reads a byte that it handles. -/
theorem afterNotify (exist : Bool) (h : Word .unlocked holds state n) :
    Word (afterNotify exist state : TxPc τ κ).stage holds state n ∧
      ∀ e old, (Oneshot.afterNotify exist state : TxPc τ κ) = .notify e old →
        old = 0 ∨ old = wakerSetFlag := by
  cases h with
  | fresh => exact ⟨.fresh, fun _ _ h => by cases h; exact .inl rfl⟩
  | waker => exact ⟨.waker, fun _ _ h => by cases h; exact .inr rfl⟩
  | dropped | droppedWaker => exact ⟨.freeing _, fun _ _ h => by cases h⟩

theorem wakerSet_of_waking {exist : Bool} (h : Word (.waking exist) holds state n) :
    n = 0 ∧ hasFlag state wakerSetFlag = true := by
  cases h with
  | waking => exact ⟨rfl, lockedState_wakerSet exist⟩
  | wakingDropped => exact ⟨rfl, by cases exist <;> rfl⟩

/-- The sender's second compare-exchange succeeds exactly if the receiver still holds the block. -/
theorem finish {exist : Bool} (h : Word (.waking exist) holds state n) :
    (state = lockedState exist ∧ Word .gone holds (closedState exist) n) ∨
      (state ≠ lockedState exist ∧ Word .freeing holds state n) := by
  cases h with
  | waking => exact .inl ⟨rfl, .closed exist⟩
  | wakingDropped =>
    refine .inr ⟨?_, .freeing _⟩
    cases exist <;> decide

/-- The sender frees the block of a receiver that gave it up. -/
theorem freeTx (h : Word .freeing holds state n) :
    holds = false ∧ n = 0 ∧ Word .gone holds state (n + 1) := by
  cases h with
  | freeing => exact ⟨rfl, rfl, .freed _⟩

end Word

/-- What a program counter of the receiver knows. -/
def RxKnows (s : St τ κ) : Prop :=
  match s.rx with
  | .pollSlot _ => ∃ k, s.oWaker = some (.async k)
  | .setWakerCas c => s.oWaker = some c.waker
  | .takeValue _ st => hasFlag st closeFlag = true → s.tx = .gone
  | .closeState _ _ st => hasFlag st closeFlag = false
  | .freeBlock _ _ | .dropFree => s.tx = .gone
  | .panicked => False
  | _ => True

/-- The invariant of every interleaving. -/
structure Inv (s : St τ κ) : Prop where
  word : Word s.tx.stage s.rx.holds s.state s.frees
  old : ∀ e old, s.tx = .notify e old → old = 0 ∨ old = wakerSetFlag
  knows : RxKnows s
  slot : s.frees = 0 → hasFlag s.state wakerSetFlag = true → s.oWaker ≠ none
  async : s.rx.polls = true → s.oWaker ≠ some .blocking

theorem inv_new : Inv (St.new : St τ κ) where
  word := .fresh
  old := by intro e old h; cases h
  knows := trivial
  slot := by intro _ h; simp [St.new, hasFlag] at h
  async := by intro _ h; cases h

/-! ## Steps of the sender -/

/-- A step of the sender. -/
theorem RxKnows.of_tx (h : RxKnows s) (htx : s.tx = .gone → t.tx = .gone)
    (hrx : t.rx = s.rx) (hslot : t.oWaker = s.oWaker) : RxKnows t := by
  unfold RxKnows at *
  rw [hrx, hslot]
  split
  case h_3 pc => rw [pc] at h; exact fun hclose => htx (h hclose)
  case h_5 pc | h_6 pc => rw [pc] at h; exact htx h
  all_goals simp_all

/-- A receiver that gave up the block knows nothing about it. -/
theorem RxKnows.of_released (h : RxKnows s) (hs : s.rx.holds = false)
    (hrx : t.rx = s.rx) : RxKnows t := by
  unfold RxKnows at *
  rw [hrx]
  cases hpc : s.rx <;> simp_all [RxPc.holds]

/-- The sender's steps other than the last one leave the slot and the receiver alone. -/
theorem Inv.of_tx (h : Inv s) (hpc : s.tx ≠ .gone)
    (hword : Word t.tx.stage s.rx.holds t.state t.frees)
    (hold : ∀ e old, t.tx = .notify e old → old = 0 ∨ old = wakerSetFlag)
    (hflag : t.frees = 0 → hasFlag t.state wakerSetFlag = true →
      s.frees = 0 ∧ hasFlag s.state wakerSetFlag = true)
    (hrx : t.rx = s.rx) (hslot : t.oWaker = s.oWaker) : Inv t where
  word := hrx ▸ hword
  old := hold
  knows := h.knows.of_tx (fun hgone => absurd hgone hpc) hrx hslot
  slot hfrees ht := hslot ▸ h.slot (hflag hfrees ht).1 (hflag hfrees ht).2
  async := hrx ▸ hslot ▸ h.async

/-- The sender that locked a byte with a waker flag finds a waker. -/
theorem Inv.slot_of_readWaker {exist : Bool} (h : Inv s)
    (pc : s.tx = .readWaker exist) : s.oWaker ≠ none := by
  have hword := h.word
  rw [pc] at hword
  exact h.slot hword.wakerSet_of_waking.1 hword.wakerSet_of_waking.2

/-- A step of the sender. -/
theorem Inv.tx (h : Inv s) (hstep : TxStep s t) : Inv t := by
  have hword := h.word
  cases hstep with
  | store v pc =>
    rw [pc] at hword
    refine h.of_tx (by simp [pc]) hword ?_ (fun hfrees hflag => ⟨hfrees, hflag⟩) rfl rfl
    rintro _ _ ⟨⟩
    exact .inl rfl
  | lock exist pc word =>
    rw [pc, word] at hword
    refine h.of_tx (by simp [pc]) (hword.notify exist (.inl rfl)) nofun (fun _ hflag => ?_) rfl rfl
    simp only [notifyState_zero, closedState_wakerSet, Bool.false_eq_true] at hflag
  | lockWaker exist old pc word waker =>
    rw [pc, word] at hword
    have hold := h.old exist old pc
    have hnext := hword.notify exist hold
    rw [if_neg waker] at hnext
    refine h.of_tx (by simp [pc]) hnext nofun (fun hfrees _ => ⟨hfrees, ?_⟩) rfl rfl
    rw [word, hold.resolve_left waker]
    rfl
  | retry exist old pc =>
    rw [pc] at hword
    have hnext := hword.afterNotify (τ := τ) (κ := κ) exist
    exact h.of_tx (by simp [pc]) hnext.1 hnext.2 (fun hfrees hflag => ⟨hfrees, hflag⟩) rfl rfl
  | read _ _ pc | wake _ _ _ pc =>
    rw [pc] at hword
    exact h.of_tx (by simp [pc]) hword nofun (fun hfrees hflag => ⟨hfrees, hflag⟩) rfl rfl
  | readNone exist pc slot => exact absurd slot (h.slot_of_readWaker pc)
  | finish exist pc word =>
    rw [pc] at hword
    rcases hword.finish with ⟨_, hnext⟩ | ⟨hne, _⟩
    · refine h.of_tx (by simp [pc]) hnext nofun (fun _ hflag => ?_) rfl rfl
      exact absurd hflag (by rw [← closedState, closedState_wakerSet]; exact Bool.false_ne_true)
    · exact absurd word hne
  | finishErr exist pc word =>
    rw [pc] at hword
    rcases hword.finish with ⟨heq, _⟩ | ⟨_, hnext⟩
    · exact absurd heq word
    · exact h.of_tx (by simp [pc]) hnext nofun (fun hfrees hflag => ⟨hfrees, hflag⟩) rfl rfl
  | free pc =>
    rw [pc] at hword
    obtain ⟨hrx, _, hnext⟩ := hword.freeTx
    exact {
      word := hnext
      old := nofun
      knows := h.knows.of_released hrx rfl
      slot := fun hfrees => absurd hfrees (Nat.succ_ne_zero _)
      async := fun _ => nofun }

/-! ## Steps of the receiver -/

theorem TxPc.eq_gone_of_stage {pc : TxPc τ κ} (h : pc.stage = .gone) : pc = .gone := by
  cases pc <;> first | rfl | cases h

theorem Inv.frees_of_holds (h : Inv s) (hrx : s.rx.holds = true) : s.frees = 0 := by
  have hword := h.word
  rw [hrx] at hword
  exact hword.frees_of_holds

theorem Inv.gone_of_close (h : Inv s) (hrx : s.rx.holds = true)
    (hclose : hasFlag s.state closeFlag = true) : s.tx = .gone := by
  have hword := h.word
  rw [hrx] at hword
  exact TxPc.eq_gone_of_stage (hword.gone_of_close hclose)

theorem holds_afterState (c : Bool) (item : Option τ) (st : UInt8) :
    (afterState c item st : RxPc τ κ).holds = true := by
  unfold afterState
  split <;> rfl

theorem polls_afterState (c : Bool) (item : Option τ) (st : UInt8) :
    (afterState c item st : RxPc τ κ).polls = false := by
  unfold afterState
  split <;> rfl

theorem holds_afterConsume (c : Bool) : (afterConsume c : RxPc τ κ).holds = false := by
  cases c <;> rfl

theorem polls_afterConsume (c : Bool) : (afterConsume c : RxPc τ κ).polls = false := by
  cases c <;> rfl

theorem knows_afterConsume {c : Bool} (hpc : s.rx = afterConsume c) : RxKnows s := by
  unfold RxKnows
  rw [hpc]
  cases c <;> trivial

/-- A receiver that reads `CLOSE` knows. -/
theorem knows_afterState {c : Bool} {item : Option τ} {st : UInt8}
    (hpc : s.rx = afterState c item st) (hgone : hasFlag st closeFlag = true → s.tx = .gone) :
    RxKnows s := by
  unfold RxKnows
  rw [hpc, afterState]
  by_cases hclose : hasFlag st closeFlag = true
  · rw [if_pos hclose]
    exact hgone hclose
  · rw [if_neg hclose]
    exact Bool.eq_false_iff.mpr hclose

/-- A receiver step that only moves the program counter stays inside a call, and the new program
counter knows what it has to. -/
theorem RxMove.spec {pc : RxPc τ κ} (h : Inv s) (hmove : RxMove s pc) (token : Bool) :
    s.rx.holds = true ∧ pc.holds = true ∧ (pc.polls = true → s.rx.polls = true) ∧
      RxKnows { s with rx := pc, token := token } := by
  have hclose : s.rx.holds = true → hasFlag s.state closeFlag = true → s.tx = .gone :=
    fun hrx hst => h.gone_of_close hrx hst
  have hknows := h.knows
  unfold RxKnows at hknows
  cases hmove with
  | tryRecv pc | poll _ pc | cancelErr _ pc | setErr _ pc | spin _ pc | loop _ pc | abandonErr pc =>
    rw [pc] at hclose ⊢
    exact ⟨rfl, rfl, nofun, hclose rfl⟩
  | pollWaker k pc lock waker =>
    rw [pc]
    refine ⟨rfl, rfl, fun _ => rfl, ?_⟩
    have hsome := h.slot (h.frees_of_holds (by rw [pc]; rfl)) waker
    have hasync := h.async (by rw [pc]; rfl)
    show ∃ k, s.oWaker = some (.async k)
    cases hslot : s.oWaker with
    | none => exact absurd hslot hsome
    | some w =>
      cases w with
      | async old => exact ⟨old, rfl⟩
      | blocking => exact absurd hslot hasync
  | pollFresh k pc | slotOther k old pc =>
    rw [pc]
    exact ⟨rfl, rfl, fun _ => rfl, trivial⟩
  | slotPanic k pc slot =>
    rw [pc] at hknows
    obtain ⟨old, hold⟩ := hknows
    exact absurd hold (slot old)
  | spinEnd d pc | spinAgain d pc | loopTimeout d pc | loopPark d pc | parkReturn d pc =>
    rw [pc]
    exact ⟨rfl, rfl, nofun, trivial⟩
  | takeNone c st pc =>
    rw [pc] at hknows ⊢
    refine ⟨rfl, holds_afterState c none st, ?_, knows_afterState rfl hknows⟩
    rw [polls_afterState]
    nofun
  | closeErr c item st pc =>
    rw [pc] at hclose ⊢
    refine ⟨rfl, holds_afterState c item s.state, ?_, knows_afterState rfl (hclose rfl)⟩
    rw [polls_afterState]
    nofun

/-- The receiver keeps the block and what its program counter needs of the slot. -/
theorem Inv.of_rx (h : Inv s) (htx : t.tx = s.tx)
    (hword : Word s.tx.stage t.rx.holds t.state t.frees) (hknows : RxKnows t)
    (hslot : t.frees = 0 → hasFlag t.state wakerSetFlag = true → t.oWaker ≠ none)
    (hasync : t.rx.polls = true → t.oWaker ≠ some .blocking) : Inv t where
  word := htx ▸ hword
  old := htx ▸ h.old
  knows := hknows
  slot := hslot
  async := hasync

/-- A step of the receiver. -/
theorem Inv.rx (h : Inv s) (hstep : RxStep willWake s t) : Inv t := by
  have hword := h.word
  have hknows := h.knows
  have hslot := h.slot
  have hasync := h.async
  unfold RxKnows at hknows
  cases hstep with
  | move pc token hmove =>
    obtain ⟨hold, hnew, hpolls, hk⟩ := hmove.spec h token
    rw [hold] at hword
    refine h.of_rx rfl ?_ hk hslot fun hp => hasync (hpolls hp)
    rw [hnew]
    exact hword
  | empty pc | slotSame _ _ pc =>
    rw [pc] at hword hasync
    exact h.of_rx rfl hword trivial hslot hasync
  | cancel k pc word =>
    rw [pc, word] at hword
    rw [pc] at hasync
    refine h.of_rx rfl (hword.swap (.inr rfl) (.inl rfl)) trivial (fun _ hflag => ?_) hasync
    simp [hasFlag] at hflag
  | set c pc =>
    rw [pc] at hword
    refine h.of_rx rfl hword rfl (fun _ _ => nofun) ?_
    cases c with
    | poll k => exact fun _ => nofun
    | block d => nofun
  | setPoll k pc word =>
    rw [pc, word] at hword
    rw [pc] at hasync hknows
    refine h.of_rx rfl (hword.swap (.inl rfl) (.inr rfl)) trivial (fun _ _ => ?_) hasync
    exact fun hnone => nomatch hnone.symm.trans hknows
  | setBlock d pc word =>
    rw [pc, word] at hword
    rw [pc] at hknows
    refine h.of_rx rfl (hword.swap (.inl rfl) (.inr rfl)) trivial (fun _ _ => ?_) nofun
    exact fun hnone => nomatch hnone.symm.trans hknows
  | timeout pc word =>
    rw [pc, word] at hword
    refine h.of_rx rfl hword.timeout trivial (fun _ hflag => ?_) nofun
    exact absurd (show hasFlag closeFlag wakerSetFlag = true from hflag) (by decide)
  | take c st pc exist =>
    rw [pc] at hword hknows
    refine h.of_rx rfl ?_ (knows_afterState rfl hknows) hslot ?_
    · rw [holds_afterState]
      exact hword
    · rw [polls_afterState]
      nofun
  | close c item st pc word =>
    rw [pc, word] at hword
    rw [pc] at hknows
    refine h.of_rx rfl ?_ (knows_afterConsume rfl) ?_ ?_
    · simp only [St.retRx, holds_afterConsume, UInt8.or_comm closeFlag]
      exact hword.release hknows
    · intro hfrees hflag
      simp only [St.retRx, UInt8.or_comm closeFlag,
        hword.flag_or_close wakerSetFlag (by simp)] at hflag
      exact hslot hfrees (word ▸ hflag)
    · simp only [St.retRx, polls_afterConsume]
      nofun
  | free c item pc =>
    rw [pc] at hword hknows
    rw [hknows] at hword
    refine h.of_rx rfl ?_ (knows_afterConsume rfl) (fun hfrees => nomatch hfrees) (fun _ => nofun)
    simp only [St.retRx, St.free, holds_afterConsume, hknows]
    exact hword.free
  | dropClose pc =>
    rw [pc] at hword
    have hslot' : s.frees = 0 → hasFlag (s.state ||| closeFlag) wakerSetFlag = true →
        s.oWaker ≠ none := by
      rw [hword.flag_or_close wakerSetFlag (by simp)]
      exact hslot
    -- the second side to close frees the block
    by_cases hclose : hasFlag s.state closeFlag = true
    · simp only [if_pos hclose]
      exact h.of_rx rfl (hword.dropClose hclose) (h.gone_of_close (by rw [pc]; rfl) hclose) hslot'
        nofun
    · simp only [if_neg hclose]
      exact h.of_rx rfl (hword.release (Bool.eq_false_iff.mpr hclose)) trivial hslot' nofun
  | dropFree pc =>
    rw [pc] at hword hknows
    rw [hknows] at hword
    refine h.of_rx rfl ?_ trivial (fun hfrees => nomatch hfrees) (fun _ => nofun)
    rw [hknows]
    exact hword.free

/-! ## Calls and whole runs -/

/-- The start of a call. -/
theorem Inv.call {a : Act τ κ} (h : Inv s) (hstep : CallStep s a t) : Inv t := by
  have hword := h.word
  have hasync := h.async
  cases hstep with
  | send v pc =>
    rw [pc] at hword
    exact h.of_tx (by simp [pc]) hword nofun (fun hfrees hflag => ⟨hfrees, hflag⟩) rfl rfl
  | dropTx pc =>
    rw [pc] at hword
    refine h.of_tx (by simp [pc]) hword ?_ (fun hfrees hflag => ⟨hfrees, hflag⟩) rfl rfl
    rintro _ _ ⟨⟩
    exact .inl rfl
  | tryRecv pc | poll k pc | recv d pc | dropRx pc =>
    rw [pc] at hword hasync
    exact h.of_rx rfl hword trivial h.slot (by first | exact hasync | nofun)
  | none a polled consumes pc =>
    rw [pc] at hword
    refine h.of_rx rfl ?_ (knows_afterConsume rfl) h.slot ?_
    · simp only [St.retRx, holds_afterConsume]
      exact hword
    · simp only [St.retRx, polls_afterConsume]
      nofun
  | dropNone pc =>
    rw [pc] at hword
    exact h.of_rx rfl hword trivial h.slot nofun

theorem Inv.step {a : Act τ κ} (h : Inv s) (hstep : step willWake s a = some t) : Inv t := by
  rcases step_cases willWake hstep with ⟨_, _, htx⟩ | ⟨_, _, hrx⟩ | hcall
  · exact h.tx htx
  · exact h.rx hrx
  · exact h.call hcall

theorem inv_of_reach {ok : St τ κ → Act τ κ → Prop}
    (hs : Reach (system willWake) ok s) : Inv s := by
  refine hs.invariant ?_ ?_
  · rintro _ rfl
    exact inv_new
  · exact fun _ _ _ h _ hstep => h.step hstep

/-! ## Holding the block -/

/-- The sender has not given up the block: some later step of it may access the block. -/
def TxPc.holds : TxPc τ κ → Bool
  | .gone | .panicked => false
  | _ => true

/-- The receiver's next step is `Box::from_raw`. -/
def RxPc.freeing : RxPc τ κ → Bool
  | .freeBlock _ _ | .dropFree => true
  | _ => false

theorem Inv.tx_ne_panicked (h : Inv s) : s.tx ≠ .panicked := by
  intro hpc
  have hword := h.word
  rw [hpc] at hword
  cases hword

theorem Inv.rx_ne_panicked (h : Inv s) : s.rx ≠ .panicked := by
  intro hpc
  have hknows := h.knows
  unfold RxKnows at hknows
  rw [hpc] at hknows
  exact hknows

theorem Inv.frees_of_holds_tx (h : Inv s) (htx : s.tx.holds = true) : s.frees = 0 := by
  refine h.word.frees_of_ne_gone fun hgone => ?_
  rw [TxPc.eq_gone_of_stage hgone] at htx
  cases htx

/-! ## The value -/

/-- The value a call of the receiver has in hand. -/
def RxPc.item : RxPc τ κ → Option τ
  | .closeState _ item _ | .freeBlock _ item => item
  | _ => none

/-- The value of a result. -/
def Res.value : Res τ → Option τ
  | .ok v => some v
  | _ => none

/-- The values the receiver's calls returned. -/
def St.returned (s : St τ κ) : List τ := s.results.filterMap Res.value

/-- The value `send` has put into the block. -/
def St.stored (s : St τ κ) : List τ :=
  match s.tx with
  | .alive | .sendValue _ => []
  | _ => s.sent.toList

/-- Where a stored value can be: in the block, in the receiver's hand, returned, or dropped. -/
def St.account (s : St τ κ) : Multiset τ :=
  (s.value.toList : Multiset τ) + s.rx.item.toList + s.returned + s.dropped

/-- The value given to `send` is in the slot, returned or dropped. -/
structure Accounted (s : St τ κ) : Prop where
  account : s.account = s.stored
  alive : s.tx = .alive → s.sent = none
  sending : ∀ v, s.tx = .sendValue v → s.sent = some v
  freed : s.frees ≠ 0 → s.value = none
  kept : s.frees = 0 → s.dropped = []

theorem accounted_new : Accounted (St.new : St τ κ) where
  account := rfl
  alive _ := rfl
  sending := nofun
  freed _ := rfl
  kept _ := rfl

/-- Freeing the block moves its value to the dropped ones. -/
theorem account_free (s : St τ κ) : s.free.account = s.account := by
  simp only [St.account, St.returned, St.free, Option.toList_none, Multiset.coe_nil, zero_add,
    ← Multiset.coe_add]
  ac_rfl

theorem stored_afterNotify {exist : Bool} {st : UInt8}
    (hpc : s.tx = afterNotify exist st) : s.stored = s.sent.toList := by
  unfold St.stored
  rw [hpc, afterNotify]
  split_ifs <;> rfl

theorem afterNotify_ne {exist : Bool} {st : UInt8} :
    (afterNotify exist st : TxPc τ κ) ≠ .alive ∧
      ∀ v, (afterNotify exist st : TxPc τ κ) ≠ .sendValue v := by
  unfold afterNotify
  split_ifs <;> exact ⟨nofun, nofun⟩

/-- A step of the sender. -/
theorem Accounted.tx (h : Accounted s) (hinv : Inv s) (hstep : TxStep s t) : Accounted t := by
  have hacc := h.account
  cases hstep with
  | store v pc =>
    have hfrees := hinv.frees_of_holds_tx (by rw [pc]; rfl)
    simp only [St.stored, pc] at hacc
    refine ⟨?_, nofun, nofun, fun hne => absurd hfrees hne, h.kept⟩
    simp only [St.account, St.stored, St.returned, h.sending v pc] at hacc ⊢
    simp_all
  | retry exist old pc =>
    simp only [St.stored, pc] at hacc
    refine ⟨?_, fun hpc => absurd hpc afterNotify_ne.1,
      fun v hpc => absurd hpc (afterNotify_ne.2 v), h.freed, h.kept⟩
    rw [stored_afterNotify rfl]
    exact hacc
  | free pc =>
    simp only [St.stored, pc] at hacc
    refine ⟨Eq.trans ?_ hacc, nofun, nofun, fun _ => rfl, fun hfrees => nomatch hfrees⟩
    exact account_free s
  | lock exist pc | lockWaker exist old pc | read exist w pc | readNone exist pc
  | wake exist w token pc | finish exist pc | finishErr exist pc =>
    simp only [St.stored, pc] at hacc
    exact ⟨hacc, nofun, nofun, h.freed, h.kept⟩

/-- A step of the receiver. -/
theorem Accounted.of_rx (h : Accounted s) (htx : t.tx = s.tx)
    (hsent : t.sent = s.sent) (hacc : t.account = s.account)
    (hfreed : t.frees ≠ 0 → t.value = none) (hkept : t.frees = 0 → t.dropped = []) :
    Accounted t where
  account := by rw [hacc, h.account, St.stored, St.stored, htx, hsent]
  alive := by rw [htx, hsent]; exact h.alive
  sending := by rw [htx, hsent]; exact h.sending
  freed := hfreed
  kept := hkept

theorem item_afterState (c : Bool) (item : Option τ) (st : UInt8) :
    (afterState c item st : RxPc τ κ).item = item := by
  unfold afterState
  split_ifs <;> rfl

theorem item_afterConsume (c : Bool) : (afterConsume c : RxPc τ κ).item = none := by
  cases c <;> rfl

theorem RxMove.item_eq {pc : RxPc τ κ} (hmove : RxMove s pc) : pc.item = s.rx.item := by
  cases hmove with
  | takeNone _ _ pc | closeErr _ _ _ pc => rw [item_afterState, pc]; rfl
  | _ => simp_all [RxPc.item]

/-- A call that returns without a value leaves the account as it was. -/
theorem account_retRx_none (s : St τ κ) {pc : RxPc τ κ} {r : Res τ} (hr : r.value = none)
    (hitem : pc.item = s.rx.item) : (s.retRx pc r).account = s.account := by
  have hret : (s.results ++ [r]).filterMap Res.value = s.results.filterMap Res.value := by
    rw [List.filterMap_append, List.filterMap_cons_none hr, List.filterMap_nil, List.append_nil]
  simp only [St.account, St.returned, St.retRx, hitem, hret]

/-- A call that returns its item moves the item from its hand to the returned values. -/
theorem account_retRx_consume (s : St τ κ) {c : Bool} {item : Option τ}
    (hitem : s.rx.item = item) :
    (s.retRx (afterConsume c) (consumeRes item)).account = s.account := by
  have hret : (s.results ++ [consumeRes item]).filterMap Res.value =
      s.results.filterMap Res.value ++ item.toList := by
    rw [List.filterMap_append]
    cases item <;> rfl
  simp only [St.account, St.returned, St.retRx, item_afterConsume, hitem, hret, Option.toList_none,
    Multiset.coe_nil, add_zero, ← Multiset.coe_add]
  ac_rfl

/-- A step of the receiver. -/
theorem Accounted.rx (h : Accounted s) (hstep : RxStep willWake s t) : Accounted t := by
  cases hstep with
  | move pc token hmove =>
    refine h.of_rx rfl rfl ?_ h.freed h.kept
    simp only [St.account, St.returned, hmove.item_eq]
  | empty pc | slotSame k old pc =>
    exact h.of_rx rfl rfl (account_retRx_none s rfl (by rw [pc]; rfl)) h.freed h.kept
  | setPoll k pc =>
    exact h.of_rx rfl rfl
      (account_retRx_none { s with state := wakerSetFlag } rfl (by rw [pc]; rfl)) h.freed h.kept
  | timeout pc =>
    exact h.of_rx rfl rfl
      (account_retRx_none { s with state := closeFlag } rfl (by rw [pc]; rfl)) h.freed h.kept
  | cancel k pc | set c pc | setBlock d pc =>
    refine h.of_rx rfl rfl ?_ h.freed h.kept
    simp only [St.account, St.returned, pc, RxPc.item]
  | take c st pc exist =>
    refine h.of_rx rfl rfl ?_ (fun _ => rfl) h.kept
    simp only [St.account, St.returned, item_afterState, pc]
    simp [RxPc.item]
  | close c item st pc word =>
    exact h.of_rx rfl rfl
      (account_retRx_consume { s with state := closeFlag ||| st } (by rw [pc]; rfl)) h.freed h.kept
  | free c item pc =>
    refine h.of_rx rfl rfl ?_ (fun _ => rfl) fun hfrees => nomatch hfrees
    rw [account_retRx_consume s.free (by rw [St.free, pc]; rfl), account_free]
  | dropClose pc =>
    refine h.of_rx rfl rfl ?_ h.freed h.kept
    simp only [St.account, St.returned, pc]
    split <;> rfl
  | dropFree pc =>
    refine h.of_rx rfl rfl (Eq.trans ?_ (account_free s)) (fun _ => rfl)
      fun hfrees => nomatch hfrees
    simp only [St.account, St.returned, St.free, pc, RxPc.item]

/-- The start of a call. -/
theorem Accounted.call {a : Act τ κ} (h : Accounted s) (hstep : CallStep s a t) : Accounted t := by
  have hacc := h.account
  cases hstep with
  | send v pc =>
    simp only [St.stored, pc] at hacc
    refine ⟨hacc, nofun, ?_, h.freed, h.kept⟩
    rintro _ ⟨⟩
    rfl
  | dropTx pc =>
    simp only [St.stored, pc] at hacc
    refine ⟨?_, nofun, nofun, h.freed, h.kept⟩
    simp only [St.stored, h.alive pc]
    exact hacc
  | tryRecv pc | poll k pc | recv d pc | dropRx pc | dropNone pc =>
    refine h.of_rx rfl rfl ?_ h.freed h.kept
    simp only [St.account, St.returned, pc, RxPc.item]
  | none a polled consumes pc =>
    have hitem : (afterConsume consumes : RxPc τ κ).item = s.rx.item := by
      rw [item_afterConsume, pc]
      rfl
    exact h.of_rx rfl rfl (account_retRx_none s rfl hitem) h.freed h.kept

/-- While the receiver holds the block, has nothing in its hand and has returned nothing, the value
is in the block. -/
theorem Accounted.value_eq (h : Accounted s) (hfrees : s.frees = 0)
    (hstored : s.stored = s.sent.toList) (hitem : s.rx.item = none) (hret : s.returned = []) :
    s.value = s.sent := by
  have hacc := h.account
  simp only [St.account, hstored, hitem, hret, h.kept hfrees, Option.toList_none, Multiset.coe_nil,
    add_zero] at hacc
  cases hv : s.value <;> cases hs : s.sent <;> simp_all

/-- **The value is accounted for in every run.** -/
theorem accounted_of_reach {ok : St τ κ → Act τ κ → Prop}
    (hs : Reach (system willWake) ok s) : Accounted s := by
  have hboth : Inv s ∧ Accounted s := by
    refine hs.invariant (P := fun s => Inv s ∧ Accounted s) ?_ ?_
    · rintro _ rfl
      exact ⟨inv_new, accounted_new⟩
    · rintro s a t ⟨hinv, h⟩ _ hstep
      refine ⟨hinv.step hstep, ?_⟩
      rcases step_cases willWake hstep with ⟨_, _, htx⟩ | ⟨_, _, hrx⟩ | hcall
      · exact h.tx hinv htx
      · exact h.rx hrx
      · exact h.call hcall
  exact hboth.2

/-! ## The block is freed once -/

theorem Inv.tx_eq_gone (h : Inv s) (htx : s.tx.holds = false) : s.tx = .gone := by
  cases hpc : s.tx with
  | gone => rfl
  | panicked => exact absurd hpc h.tx_ne_panicked
  | _ => rw [hpc] at htx; cases htx

theorem Inv.frees_of_released (h : Inv s) (htx : s.tx.holds = false)
    (hrx : s.rx.holds = false) : s.frees = 1 := by
  have hword := h.word
  rw [h.tx_eq_gone htx, hrx] at hword
  exact hword.frees_of_released

theorem Inv.released_of_free (h : Inv s) (htx : s.tx = .free) : s.rx.holds = false := by
  have hword := h.word
  rw [htx] at hword
  exact hword.freeTx.1

theorem Inv.released_of_freeing (h : Inv s) (hrx : s.rx.freeing = true) : s.tx.holds = false := by
  have hknows := h.knows
  unfold RxKnows at hknows
  cases hpc : s.rx with
  | freeBlock _ _ | dropFree =>
    rw [hpc] at hknows
    rw [hknows]
    rfl
  | _ => rw [hpc] at hrx; cases hrx

/-- Once both sides are done, a sent value was returned or dropped, once. -/
theorem Accounted.settled (h : Accounted s) (hinv : Inv s)
    (htx : s.tx.holds = false) (hrx : s.rx.holds = false) :
    (s.returned : Multiset τ) + s.dropped = s.sent.toList := by
  have hacc := h.account
  have hfrees := hinv.frees_of_released htx hrx
  have hvalue : s.value = none := h.freed (by omega)
  have hitem : s.rx.item = none := by
    cases hpc : s.rx with
    | closeState _ _ _ | freeBlock _ _ => rw [hpc] at hrx; cases hrx
    | _ => rfl
  have hstored : s.stored = s.sent.toList := by
    unfold St.stored
    cases hpc : s.tx with
    | alive | sendValue _ => rw [hpc] at htx; cases htx
    | _ => rfl
  simpa [St.account, hitem, hvalue, hstored] using hacc

/-- The block is freed exactly once, by a side that is the only one left. While a side may still
access the block it is not freed; when both sides are done it has been freed once, and the value
given to `send` was returned or dropped once. No panic branch is reached. -/
theorem freed_once {willWake : κ → κ → Bool} {s : St τ κ}
    (hs : Reachable (system willWake) s) :
    (s.tx.holds = true ∨ s.rx.holds = true → s.frees = 0) ∧
      (s.tx = .free → s.rx.holds = false) ∧
      (s.rx.freeing = true → s.tx.holds = false) ∧
      (s.tx.holds = false → s.rx.holds = false →
        s.frees = 1 ∧ (s.returned : Multiset τ) + s.dropped = s.sent.toList) ∧
      s.account = s.stored ∧ s.tx ≠ .panicked ∧ s.rx ≠ .panicked := by
  have hinv := inv_of_reach hs
  have hacc := accounted_of_reach hs
  refine ⟨?_, hinv.released_of_free, hinv.released_of_freeing, ?_, hacc.account,
    hinv.tx_ne_panicked, hinv.rx_ne_panicked⟩
  · rintro (htx | hrx)
    · exact hinv.frees_of_holds_tx htx
    · exact hinv.frees_of_holds hrx
  · exact fun htx hrx => ⟨hinv.frees_of_released htx hrx, hacc.settled hinv htx hrx⟩

/-- The receiver polls, the sender locks and reads the waker, the receiver takes the value and
closes first, and the sender frees the block; or the sender is done first, and the receiver that
takes the value, alone before it frees the block, does. -/
theorem freed_once_by_either : (∃ s : St Nat Nat, Reachable (system fun a b => a == b) s ∧
      (s.tx.holds = false ∧ s.rx.holds = false ∧ s.sent = some 7 ∧ s.returned = [7]) ∧
      s.frees = 1 ∧ s.account = s.stored) ∧
    ∃ s t : St Nat Nat, Reachable (system fun a b => a == b) s ∧ s.rx.freeing = true ∧
      s.tx.holds = false ∧ step (fun a b => a == b) s (.stepRx false) = some t ∧
      t.returned = [7] ∧ t.frees = 1 := by
  have hnew : Reachable (system fun a b : Nat => a == b) (St.new : St Nat Nat) := .init rfl
  constructor
  · obtain ⟨s, hs, hend⟩ := hnew.exists_of_run
      [.poll 1, .stepRx false, .stepRx false, .stepRx false, .send 7, .stepTx false,
        .stepTx false, .stepTx false, .stepTx false, .stepTx false, .tryRecv, .stepRx false,
        .stepRx false, .stepRx false, .stepTx false, .stepTx false]
      (fun s => s.tx.holds = false ∧ s.rx.holds = false ∧ s.sent = some 7 ∧
        s.returned = [7]) (by decide)
    obtain ⟨_, _, _, hdone, hacc, _⟩ := freed_once hs
    exact ⟨s, hs, hend, (hdone hend.1 hend.2.1).1, hacc⟩
  · obtain ⟨s, hs, hfreeing, hlast⟩ := hnew.exists_of_run
      [.send 7, .stepTx false, .stepTx false, .tryRecv, .stepRx false, .stepRx false]
      (fun s => s.rx.freeing = true ∧ (step (fun a b => a == b) s (.stepRx false)).map
        (fun t => (t.tx.holds, t.rx.holds, t.returned)) = some (false, false, [7])) (by decide)
    obtain ⟨t, hstep, hends⟩ := Option.map_eq_some_iff.mp hlast
    obtain ⟨htx, hends⟩ := Prod.mk.inj hends
    obtain ⟨hrx, hreturned⟩ := Prod.mk.inj hends
    have ht : Reachable (system fun a b => a == b) t := .step (.stepRx false) hs trivial hstep
    exact ⟨s, t, hs, hfreeing, (freed_once hs).2.2.1 hfreeing, hstep, hreturned,
      ((freed_once ht).2.2.2.1 htx hrx).1⟩

end Crossfire.Oneshot
