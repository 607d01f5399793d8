import Crossfire.Lib.Interleaving
import Crossfire.Waker.State
import Mathlib.Data.UInt

/-!
# The oneshot channel at atomic-operation granularity

`oneshot.rs`: a heap block `OneShotInner` shared by one sender and one receiver. The block holds a
byte of four flags, the value slot and the slot of the receiver's waker. One step of the machine is
one atomic operation on the byte, one access to a slot, one `wake_by_ref`, one return from `park`,
or one `Box::from_raw`; the steps of the two parties interleave arbitrarily and every load sees the
last store.

The sender's operations are `send` and `drop`, both through `_notify_rx`. The receiver may call
`try_recv` and `poll` any number of times and then `recv`, `recv_timeout` or `drop`. The clock is
the scheduler's: a deadline may have passed at any check. `debug_assert!` is not part of the model.

The history fields record what the properties speak about: the value given to `send`, whether the
sender was dropped instead, what each receiver call returned, which wakers the sender woke, how
often the block was freed and which values were dropped with it.
-/

set_option autoImplicit false

namespace Crossfire.Oneshot

open Lib.Interleaving

/-- Set once by `send` or by the sender's `drop`, never cleared. -/
def lockFlag : UInt8 := 0x1

/-- Set by the receiver. -/
def wakerSetFlag : UInt8 := 0x2

/-- Set by whichever side exits first. -/
def closeFlag : UInt8 := 0x4

/-- The sender has a value. -/
def existFlag : UInt8 := 0x8

/-- `state & flag > 0`. -/
def hasFlag (state flag : UInt8) : Bool := decide (0 < state &&& flag)

/-- The `exist_flag` of `_notify_rx`. -/
def existBit (exist : Bool) : UInt8 := if exist then existFlag else 0

/-- What one receiver call returned. -/
inductive Res (τ : Type)
  | ok (v : τ)
  | disconnected
  | empty
  | pending
  | timeout
  deriving DecidableEq, Repr

/-- Program counter of the sender. -/
inductive TxPc (τ κ : Type)
  /-- Neither `send` nor `drop` has been called. -/
  | alive
  /-- `send`: `value_mut().replace(item)`. -/
  | sendValue (v : τ)
  /-- `_notify_rx`: the compare-exchange from `old`. -/
  | notify (exist : Bool) (old : UInt8)
  /-- `_notify_rx`: `get_waker().as_ref()`. -/
  | readWaker (exist : Bool)
  /-- `_notify_rx`: `wake_by_ref`, with the slot still borrowed. -/
  | wake (exist : Bool) (w : ThinWaker κ)
  /-- `_notify_rx`: the second compare-exchange. -/
  | finish (exist : Bool)
  /-- `Box::from_raw` after `_notify_rx` returned true. -/
  | free
  | gone
  /-- One of the `panic!` / `unreachable!` branches. -/
  | panicked
  deriving DecidableEq, Repr

/-- The caller of `set_waker`. -/
inductive Caller (κ : Type)
  | poll (k : κ)
  | block (deadline : Bool)
  deriving DecidableEq, Repr

/-- The waker a caller stores. -/
def Caller.waker {κ : Type} : Caller κ → ThinWaker κ
  | .poll k => .async k
  | .block _ => .blocking

/-- `_recv_blocking` takes the receiver by value, `poll` by reference. -/
def Caller.consumes {κ : Type} : Caller κ → Bool
  | .poll _ => false
  | .block _ => true

/-- Program counter of the receiver. A call that takes the receiver by value carries
`consumes = true` into `_consume_value`. -/
inductive RxPc (τ κ : Type)
  /-- Between calls; `live` says that `self.0` is `Some`. -/
  | idle (live : Bool)
  | tryRecv
  /-- `poll`: `check_exist!(SeqCst)`. -/
  | poll (k : κ)
  /-- `poll`: `get_waker().as_ref().unwrap()` and `will_wake`. -/
  | pollSlot (k : κ)
  /-- `poll`: `cancel_waker(false)`. -/
  | pollCancel (k : κ)
  /-- `set_waker`: `get_waker().replace(waker)`. -/
  | setWaker (c : Caller κ)
  /-- `set_waker`: the compare-exchange. -/
  | setWakerCas (c : Caller κ)
  /-- `_recv_blocking`: `try_recv!(Acquire)`, first and in the backoff loop. -/
  | recvSpin (deadline : Bool)
  /-- `_recv_blocking`: `try_recv!(SeqCst)` and `check_timeout`. -/
  | recvLoop (deadline : Bool)
  | park (deadline : Bool)
  /-- `_recv_blocking`: `cancel_waker(true)` after the deadline. -/
  | abandon
  /-- `_consume_value`: `value_mut().take()` when `state` has `EXIST_FLAG`. -/
  | takeValue (consumes : Bool) (state : UInt8)
  /-- `_consume_value`: the compare-exchange that sets `CLOSE_FLAG`. -/
  | closeState (consumes : Bool) (item : Option τ) (state : UInt8)
  /-- `_consume_value`: `Box::from_raw`. -/
  | freeBlock (consumes : Bool) (item : Option τ)
  /-- `RxOneshot::drop`: `set_state(CLOSE_FLAG)`. -/
  | dropClose
  /-- `RxOneshot::drop`: `Box::from_raw`. -/
  | dropFree
  | gone
  /-- `unwrap` on an empty waker slot, or `will_wake` on a thread handle. -/
  | panicked
  deriving DecidableEq, Repr

/-- The block, the two parties and the history. -/
structure St (τ κ : Type) where
  state : UInt8
  value : Option τ
  oWaker : Option (ThinWaker κ)
  tx : TxPc τ κ
  rx : RxPc τ κ
  /-- Pending unpark of the receiver's thread. -/
  token : Bool
  /-- How often the block was freed. -/
  frees : Nat
  /-- Values dropped with the block. -/
  dropped : List τ
  /-- The argument of `send`. -/
  sent : Option τ
  /-- The sender was dropped without sending. -/
  txDropped : Bool
  /-- Results of the receiver's calls, oldest first. -/
  results : List (Res τ)
  /-- The waker of the last call of `poll`. -/
  polled : Option κ
  /-- How often the waker slot was written. -/
  stores : Nat
  /-- Wakers woken by the sender, each with the number of slot writes before that wake. -/
  woken : List (Nat × ThinWaker κ)
  deriving DecidableEq

/-- `oneshot()`. -/
def St.new {τ κ : Type} : St τ κ where
  state := 0
  value := none
  oWaker := none
  tx := .alive
  rx := .idle true
  token := false
  frees := 0
  dropped := []
  sent := none
  txDropped := false
  results := []
  polled := none
  stores := 0
  woken := []

/-- One action: the start of a call, or one step of the party's current call. The flag of a step is
the scheduler's choice: a spurious failure of a weak compare-exchange for the sender, the end of the
backoff, a passed deadline or a spurious return from `park` for the receiver. -/
inductive Act (τ κ : Type)
  | send (v : τ)
  | dropTx
  | stepTx (choice : Bool)
  | tryRecv
  | poll (k : κ)
  | recv (deadline : Bool)
  | dropRx
  | stepRx (choice : Bool)
  deriving DecidableEq, Repr

section Step

variable {τ κ : Type}

/-- `Box::from_raw`: the block is freed and the value still in it is dropped. -/
def St.free (s : St τ κ) : St τ κ :=
  { s with
    frees := s.frees + 1
    dropped := s.dropped ++ s.value.toList
    value := none
    oWaker := none }

/-- `_notify_rx` after it read `old`: another round, or a return of `true`, or the panic. -/
def afterNotify (exist : Bool) (old : UInt8) : TxPc τ κ :=
  if old = 0 ∨ old = wakerSetFlag then .notify exist old
  else if hasFlag old closeFlag then .free
  else .panicked

/-- The state `_notify_rx` tries to install over `old`. -/
def notifyState (exist : Bool) (old : UInt8) : UInt8 :=
  if old = 0 then lockFlag ||| closeFlag ||| existBit exist
  else lockFlag ||| wakerSetFlag ||| existBit exist

/-- One step of the sender's call. -/
def stepTx (s : St τ κ) (spurious : Bool) : Option (St τ κ) :=
  match s.tx with
  | .sendValue v => some { s with value := some v, tx := .notify true 0 }
  | .notify exist old =>
    if s.state = old ∧ spurious = false then
      some { s with
        state := notifyState exist old
        tx := if old = 0 then .gone else .readWaker exist }
    else some { s with tx := afterNotify exist s.state }
  | .readWaker exist =>
    match s.oWaker with
    | some w => some { s with tx := .wake exist w }
    | none => some { s with tx := .panicked }
  | .wake exist w =>
    some { s with
      woken := (s.stores, w) :: s.woken
      token := match w with
        | .blocking => true
        | .async _ => s.token
      tx := .finish exist }
  | .finish exist =>
    if s.state = lockFlag ||| wakerSetFlag ||| existBit exist then
      some { s with state := closeFlag ||| lockFlag ||| existBit exist, tx := .gone }
    else some { s with tx := .free }
  | .free => some { s.free with tx := .gone }
  | .alive | .gone | .panicked => none

/-- `_consume_value` with the value in hand and the state last read. -/
def afterState (consumes : Bool) (item : Option τ) (state : UInt8) : RxPc τ κ :=
  if hasFlag state closeFlag then .freeBlock consumes item else .closeState consumes item state

/-- The receiver after a call that consumed the value: `self.0` is `None`, or the receiver itself
is gone. -/
def afterConsume (consumes : Bool) : RxPc τ κ := if consumes then .gone else .idle false

/-- The result of a call that ended in `_consume_value`. -/
def consumeRes : Option τ → Res τ
  | some v => .ok v
  | none => .disconnected

/-- The receiver's call returns. -/
def St.retRx (s : St τ κ) (pc : RxPc τ κ) (r : Res τ) : St τ κ :=
  { s with rx := pc, results := s.results ++ [r] }

variable (willWake : κ → κ → Bool)

/-- One step of the receiver's call. -/
def stepRx (s : St τ κ) (choice : Bool) : Option (St τ κ) :=
  match s.rx with
  | .tryRecv =>
    if hasFlag s.state lockFlag then some { s with rx := .takeValue false s.state }
    else some (s.retRx (.idle true) .empty)
  | .poll k =>
    if hasFlag s.state lockFlag then some { s with rx := .takeValue false s.state }
    else if hasFlag s.state wakerSetFlag then some { s with rx := .pollSlot k }
    else some { s with rx := .setWaker (.poll k) }
  | .pollSlot k =>
    match s.oWaker with
    | some (.async old) =>
      if willWake old k then some (s.retRx (.idle true) .pending)
      else some { s with rx := .pollCancel k }
    | _ => some { s with rx := .panicked }
  | .pollCancel k =>
    if s.state = wakerSetFlag then some { s with state := 0, rx := .setWaker (.poll k) }
    else some { s with rx := .takeValue false s.state }
  | .setWaker c =>
    some { s with oWaker := some c.waker, stores := s.stores + 1, rx := .setWakerCas c }
  | .setWakerCas c =>
    if s.state = 0 then
      match c with
      | .poll _ => some ({ s with state := wakerSetFlag }.retRx (.idle true) .pending)
      | .block deadline => some { s with state := wakerSetFlag, rx := .recvLoop deadline }
    else some { s with rx := .takeValue c.consumes s.state }
  | .recvSpin deadline =>
    if hasFlag s.state lockFlag then some { s with rx := .takeValue true s.state }
    else if choice then some { s with rx := .setWaker (.block deadline) }
    else some s
  | .recvLoop deadline =>
    if hasFlag s.state lockFlag then some { s with rx := .takeValue true s.state }
    else if deadline && choice then some { s with rx := .abandon }
    else some { s with rx := .park deadline }
  | .park deadline =>
    if s.token then some { s with token := false, rx := .recvLoop deadline }
    else if choice then some { s with rx := .recvLoop deadline }
    else none
  | .abandon =>
    if s.state = wakerSetFlag then some ({ s with state := closeFlag }.retRx .gone .timeout)
    else some { s with rx := .takeValue true s.state }
  | .takeValue consumes state =>
    if hasFlag state existFlag then
      some { s with value := none, rx := afterState consumes s.value state }
    else some { s with rx := afterState consumes none state }
  | .closeState consumes item state =>
    if s.state = state then
      some ({ s with state := closeFlag ||| state }.retRx (afterConsume consumes)
        (consumeRes item))
    else some { s with rx := afterState consumes item s.state }
  | .freeBlock consumes item => some (s.free.retRx (afterConsume consumes) (consumeRes item))
  | .dropClose =>
    some { s with
      state := s.state ||| closeFlag
      rx := if hasFlag s.state closeFlag then .dropFree else .gone }
  | .dropFree => some { s.free with rx := .gone }
  | .idle _ | .gone | .panicked => none

/-- A call of the receiver whose `self.0` is already `None` returns at once; `live` is its first
step otherwise. -/
def startRx (s : St τ κ) (live : RxPc τ κ) (done : RxPc τ κ) : Option (St τ κ) :=
  match s.rx with
  | .idle true => some { s with rx := live }
  | .idle false => some (s.retRx done .disconnected)
  | _ => none

/-- One action of the system. -/
def step (s : St τ κ) : Act τ κ → Option (St τ κ)
  | .send v =>
    match s.tx with
    | .alive => some { s with tx := .sendValue v, sent := some v }
    | _ => none
  | .dropTx =>
    match s.tx with
    | .alive => some { s with tx := .notify false 0, txDropped := true }
    | _ => none
  | .stepTx choice => stepTx s choice
  | .tryRecv => startRx s .tryRecv (.idle false)
  | .poll k => (startRx s (.poll k) (.idle false)).map fun t => { t with polled := some k }
  | .recv deadline => startRx s (.recvSpin deadline) .gone
  | .dropRx =>
    match s.rx with
    | .idle true => some { s with rx := .dropClose }
    | .idle false => some { s with rx := .gone }
    | _ => none
  | .stepRx choice => stepRx willWake s choice

/-- The oneshot pair as an interleaving system. -/
def system : System (St τ κ) (Act τ κ) where
  init s := s = St.new
  step := step willWake

/-! ## What one step does -/

/-- The steps of the sender, one constructor for each branch of `stepTx`. -/
inductive TxStep (s : St τ κ) : St τ κ → Prop
  | store (v : τ) (pc : s.tx = .sendValue v) :
      TxStep s { s with value := some v, tx := .notify true 0 }
  | lock (exist : Bool) (pc : s.tx = .notify exist 0) (word : s.state = 0) :
      TxStep s { s with state := notifyState exist 0, tx := .gone }
  | lockWaker (exist : Bool) (old : UInt8) (pc : s.tx = .notify exist old) (word : s.state = old)
      (waker : old ≠ 0) :
      TxStep s { s with state := notifyState exist old, tx := .readWaker exist }
  | retry (exist : Bool) (old : UInt8) (pc : s.tx = .notify exist old) :
      TxStep s { s with tx := afterNotify exist s.state }
  | read (exist : Bool) (w : ThinWaker κ) (pc : s.tx = .readWaker exist)
      (slot : s.oWaker = some w) :
      TxStep s { s with tx := .wake exist w }
  | readNone (exist : Bool) (pc : s.tx = .readWaker exist) (slot : s.oWaker = none) :
      TxStep s { s with tx := .panicked }
  | wake (exist : Bool) (w : ThinWaker κ) (token : Bool) (pc : s.tx = .wake exist w) :
      TxStep s { s with woken := (s.stores, w) :: s.woken, token := token, tx := .finish exist }
  | finish (exist : Bool) (pc : s.tx = .finish exist)
      (word : s.state = lockFlag ||| wakerSetFlag ||| existBit exist) :
      TxStep s { s with state := closeFlag ||| lockFlag ||| existBit exist, tx := .gone }
  | finishErr (exist : Bool) (pc : s.tx = .finish exist)
      (word : s.state ≠ lockFlag ||| wakerSetFlag ||| existBit exist) :
      TxStep s { s with tx := .free }
  | free (pc : s.tx = .free) : TxStep s { s.free with tx := .gone }

variable {s t : St τ κ}

/-- A step of the sender is one of `TxStep`. -/
theorem txStep_of_stepTx {b : Bool} (h : stepTx s b = some t) : TxStep s t := by
  unfold stepTx at h
  split at h
  case h_1 v pc => cases h; exact .store v pc
  case h_2 exist old pc =>
    split at h
    case isTrue word =>
      cases h
      by_cases hold : old = 0
      · subst hold
        exact .lock exist pc word.1
      · simp only [if_neg hold]
        exact .lockWaker exist old pc word.1 hold
    case isFalse => cases h; exact .retry exist old pc
  case h_3 exist pc =>
    split at h
    case h_1 w slot => cases h; exact .read exist w pc slot
    case h_2 slot => cases h; exact .readNone exist pc slot
  case h_4 exist w pc => cases h; exact .wake exist w _ pc
  case h_5 exist pc =>
    split at h
    case isTrue word => cases h; exact .finish exist pc word
    case isFalse word => cases h; exact .finishErr exist pc word
  case h_6 pc => cases h; exact .free pc
  all_goals cases h

/-- The receiver's steps that neither change the block nor return: the program counter moves. -/
inductive RxMove (s : St τ κ) : RxPc τ κ → Prop
  | tryRecv (pc : s.rx = .tryRecv) (lock : hasFlag s.state lockFlag = true) :
      RxMove s (.takeValue false s.state)
  | poll (k : κ) (pc : s.rx = .poll k) (lock : hasFlag s.state lockFlag = true) :
      RxMove s (.takeValue false s.state)
  | pollWaker (k : κ) (pc : s.rx = .poll k) (lock : hasFlag s.state lockFlag = false)
      (waker : hasFlag s.state wakerSetFlag = true) : RxMove s (.pollSlot k)
  | pollFresh (k : κ) (pc : s.rx = .poll k) (lock : hasFlag s.state lockFlag = false)
      (waker : hasFlag s.state wakerSetFlag = false) : RxMove s (.setWaker (.poll k))
  | slotOther (k old : κ) (pc : s.rx = .pollSlot k) (slot : s.oWaker = some (.async old)) :
      RxMove s (.pollCancel k)
  | slotPanic (k : κ) (pc : s.rx = .pollSlot k) (slot : ∀ old, s.oWaker ≠ some (.async old)) :
      RxMove s .panicked
  | cancelErr (k : κ) (pc : s.rx = .pollCancel k) (word : s.state ≠ wakerSetFlag) :
      RxMove s (.takeValue false s.state)
  | setErr (c : Caller κ) (pc : s.rx = .setWakerCas c) (word : s.state ≠ 0) :
      RxMove s (.takeValue c.consumes s.state)
  | spin (d : Bool) (pc : s.rx = .recvSpin d) (lock : hasFlag s.state lockFlag = true) :
      RxMove s (.takeValue true s.state)
  | spinEnd (d : Bool) (pc : s.rx = .recvSpin d) (lock : hasFlag s.state lockFlag = false) :
      RxMove s (.setWaker (.block d))
  | spinAgain (d : Bool) (pc : s.rx = .recvSpin d) : RxMove s (.recvSpin d)
  | loop (d : Bool) (pc : s.rx = .recvLoop d) (lock : hasFlag s.state lockFlag = true) :
      RxMove s (.takeValue true s.state)
  | loopTimeout (d : Bool) (pc : s.rx = .recvLoop d) : RxMove s .abandon
  | loopPark (d : Bool) (pc : s.rx = .recvLoop d) : RxMove s (.park d)
  | parkReturn (d : Bool) (pc : s.rx = .park d) : RxMove s (.recvLoop d)
  | abandonErr (pc : s.rx = .abandon) (word : s.state ≠ wakerSetFlag) :
      RxMove s (.takeValue true s.state)
  | takeNone (c : Bool) (st : UInt8) (pc : s.rx = .takeValue c st)
      (exist : hasFlag st existFlag = false) : RxMove s (afterState c none st)
  | closeErr (c : Bool) (item : Option τ) (st : UInt8) (pc : s.rx = .closeState c item st)
      (word : s.state ≠ st) : RxMove s (afterState c item s.state)

/-- The steps of the receiver, one constructor for each branch of `stepRx` that is not an
`RxMove`. -/
inductive RxStep (s : St τ κ) : St τ κ → Prop
  | move (pc : RxPc τ κ) (token : Bool) (h : RxMove s pc) :
      RxStep s { s with rx := pc, token := token }
  | empty (pc : s.rx = .tryRecv) (lock : hasFlag s.state lockFlag = false) :
      RxStep s (s.retRx (.idle true) .empty)
  | slotSame (k old : κ) (pc : s.rx = .pollSlot k) (slot : s.oWaker = some (.async old))
      (same : willWake old k = true) : RxStep s (s.retRx (.idle true) .pending)
  | cancel (k : κ) (pc : s.rx = .pollCancel k) (word : s.state = wakerSetFlag) :
      RxStep s { s with state := 0, rx := .setWaker (.poll k) }
  | set (c : Caller κ) (pc : s.rx = .setWaker c) :
      RxStep s { s with oWaker := some c.waker, stores := s.stores + 1, rx := .setWakerCas c }
  | setPoll (k : κ) (pc : s.rx = .setWakerCas (.poll k)) (word : s.state = 0) :
      RxStep s ({ s with state := wakerSetFlag }.retRx (.idle true) .pending)
  | setBlock (d : Bool) (pc : s.rx = .setWakerCas (.block d)) (word : s.state = 0) :
      RxStep s { s with state := wakerSetFlag, rx := .recvLoop d }
  | timeout (pc : s.rx = .abandon) (word : s.state = wakerSetFlag) :
      RxStep s ({ s with state := closeFlag }.retRx .gone .timeout)
  | take (c : Bool) (st : UInt8) (pc : s.rx = .takeValue c st)
      (exist : hasFlag st existFlag = true) :
      RxStep s { s with value := none, rx := afterState c s.value st }
  | close (c : Bool) (item : Option τ) (st : UInt8) (pc : s.rx = .closeState c item st)
      (word : s.state = st) :
      RxStep s ({ s with state := closeFlag ||| st }.retRx (afterConsume c) (consumeRes item))
  | free (c : Bool) (item : Option τ) (pc : s.rx = .freeBlock c item) :
      RxStep s (s.free.retRx (afterConsume c) (consumeRes item))
  | dropClose (pc : s.rx = .dropClose) :
      RxStep s { s with
        state := s.state ||| closeFlag
        rx := if hasFlag s.state closeFlag then .dropFree else .gone }
  | dropFree (pc : s.rx = .dropFree) : RxStep s { s.free with rx := .gone }

theorem RxStep.of_move {s : St τ κ} {pc : RxPc τ κ} (h : RxMove s pc) :
    RxStep willWake s { s with rx := pc } :=
  .move pc s.token h

/-- A step of the receiver is one of `RxStep`. -/
theorem rxStep_of_stepRx {b : Bool} (h : stepRx willWake s b = some t) : RxStep willWake s t := by
  unfold stepRx at h
  split at h
  case h_1 pc =>
    split at h
    case isTrue lock => cases h; exact .of_move willWake (.tryRecv pc lock)
    case isFalse lock => cases h; exact .empty pc (Bool.eq_false_iff.mpr lock)
  case h_2 k pc =>
    split at h
    case isTrue lock => cases h; exact .of_move willWake (.poll k pc lock)
    case isFalse lock =>
      split at h
      case isTrue waker =>
        cases h
        exact .of_move willWake (.pollWaker k pc (Bool.eq_false_iff.mpr lock) waker)
      case isFalse waker =>
        cases h
        exact .of_move willWake
          (.pollFresh k pc (Bool.eq_false_iff.mpr lock) (Bool.eq_false_iff.mpr waker))
  case h_3 k pc =>
    split at h
    case h_1 old slot =>
      split at h
      case isTrue same => cases h; exact .slotSame k old pc slot same
      case isFalse => cases h; exact .of_move willWake (.slotOther k old pc slot)
    case h_2 slot => cases h; exact .of_move willWake (.slotPanic k pc slot)
  case h_4 k pc =>
    split at h
    case isTrue word => cases h; exact .cancel k pc word
    case isFalse word => cases h; exact .of_move willWake (.cancelErr k pc word)
  case h_5 c pc => cases h; exact .set c pc
  case h_6 c pc =>
    split at h
    case isTrue word =>
      cases c with
      | poll k => cases h; exact .setPoll k pc word
      | block d => cases h; exact .setBlock d pc word
    case isFalse word => cases h; exact .of_move willWake (.setErr c pc word)
  case h_7 d pc =>
    split at h
    case isTrue lock => cases h; exact .of_move willWake (.spin d pc lock)
    case isFalse lock =>
      split at h
      case isTrue => cases h; exact .of_move willWake (.spinEnd d pc (Bool.eq_false_iff.mpr lock))
      case isFalse =>
        cases h
        have hmove := RxStep.of_move willWake (RxMove.spinAgain d pc)
        rw [← pc] at hmove
        exact hmove
  case h_8 d pc =>
    split at h
    case isTrue lock => cases h; exact .of_move willWake (.loop d pc lock)
    case isFalse =>
      split at h
      case isTrue => cases h; exact .of_move willWake (.loopTimeout d pc)
      case isFalse => cases h; exact .of_move willWake (.loopPark d pc)
  case h_9 d pc =>
    split at h
    case isTrue => cases h; exact .move _ false (.parkReturn d pc)
    case isFalse =>
      split at h
      case isTrue => cases h; exact .of_move willWake (.parkReturn d pc)
      case isFalse => cases h
  case h_10 pc =>
    split at h
    case isTrue word => cases h; exact .timeout pc word
    case isFalse word => cases h; exact .of_move willWake (.abandonErr pc word)
  case h_11 c st pc =>
    split at h
    case isTrue exist => cases h; exact .take c st pc exist
    case isFalse exist =>
      cases h
      exact .of_move willWake (.takeNone c st pc (Bool.eq_false_iff.mpr exist))
  case h_12 c item st pc =>
    split at h
    case isTrue word => cases h; exact .close c item st pc word
    case isFalse word => cases h; exact .of_move willWake (.closeErr c item st pc word)
  case h_13 c item pc => cases h; exact .free c item pc
  case h_14 pc => cases h; exact .dropClose pc
  case h_15 pc => cases h; exact .dropFree pc
  all_goals cases h

/-- The first step of a call. -/
inductive CallStep (s : St τ κ) : Act τ κ → St τ κ → Prop
  | send (v : τ) (pc : s.tx = .alive) :
      CallStep s (.send v) { s with tx := .sendValue v, sent := some v }
  | dropTx (pc : s.tx = .alive) :
      CallStep s .dropTx { s with tx := .notify false 0, txDropped := true }
  | tryRecv (pc : s.rx = .idle true) : CallStep s .tryRecv { s with rx := .tryRecv }
  | poll (k : κ) (pc : s.rx = .idle true) :
      CallStep s (.poll k) { s with rx := .poll k, polled := some k }
  | recv (d : Bool) (pc : s.rx = .idle true) : CallStep s (.recv d) { s with rx := .recvSpin d }
  | dropRx (pc : s.rx = .idle true) : CallStep s .dropRx { s with rx := .dropClose }
  /-- A call on a receiver whose `self.0` is `None`. -/
  | none (a : Act τ κ) (polled : Option κ) (consumes : Bool) (pc : s.rx = .idle false) :
      CallStep s a { s.retRx (afterConsume consumes) .disconnected with polled := polled }
  | dropNone (pc : s.rx = .idle false) : CallStep s .dropRx { s with rx := .gone }

theorem startRx_cases {live done : RxPc τ κ} (h : startRx s live done = some t) :
    (s.rx = .idle true ∧ t = { s with rx := live }) ∨
      (s.rx = .idle false ∧ t = s.retRx done .disconnected) := by
  unfold startRx at h
  split at h
  case h_1 pc => cases h; exact .inl ⟨pc, rfl⟩
  case h_2 pc => cases h; exact .inr ⟨pc, rfl⟩
  case h_3 => cases h

/-- Every step is a step of the sender's call, a step of the receiver's call or the start of a
call. -/
theorem step_cases {a : Act τ κ} (h : step willWake s a = some t) :
    (∃ b, a = .stepTx b ∧ TxStep s t) ∨ (∃ b, a = .stepRx b ∧ RxStep willWake s t) ∨
      CallStep s a t := by
  cases a with
  | send v =>
    simp only [step] at h
    split at h
    case h_1 pc => cases h; exact .inr (.inr (.send v pc))
    case h_2 => cases h
  | dropTx =>
    simp only [step] at h
    split at h
    case h_1 pc => cases h; exact .inr (.inr (.dropTx pc))
    case h_2 => cases h
  | stepTx b => exact .inl ⟨b, rfl, txStep_of_stepTx h⟩
  | tryRecv =>
    rcases startRx_cases h with ⟨pc, rfl⟩ | ⟨pc, rfl⟩
    · exact .inr (.inr (.tryRecv pc))
    · exact .inr (.inr (.none _ s.polled false pc))
  | poll k =>
    simp only [step, Option.map_eq_some_iff] at h
    obtain ⟨u, hu, rfl⟩ := h
    rcases startRx_cases hu with ⟨pc, rfl⟩ | ⟨pc, rfl⟩
    · exact .inr (.inr (.poll k pc))
    · exact .inr (.inr (.none _ (some k) false pc))
  | recv d =>
    rcases startRx_cases h with ⟨pc, rfl⟩ | ⟨pc, rfl⟩
    · exact .inr (.inr (.recv d pc))
    · exact .inr (.inr (.none _ s.polled true pc))
  | dropRx =>
    simp only [step] at h
    split at h
    case h_1 pc => cases h; exact .inr (.inr (.dropRx pc))
    case h_2 pc => cases h; exact .inr (.inr (.dropNone pc))
    case h_3 => cases h
  | stepRx b => exact .inr (.inl ⟨b, rfl, rxStep_of_stepRx willWake h⟩)

end Step

end Crossfire.Oneshot
