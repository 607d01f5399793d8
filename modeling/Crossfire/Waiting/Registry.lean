import Crossfire.Lib.Programs
import Crossfire.Channel.Model

/-!
# Wakers and registries as programs

`waker.rs` and the registries of `waker_registry.rs` in the shape of their source. A function that
takes `o_waker: &mut Option<Waker>` returns what it leaves there, and a branch that panics is a
`panic` of the program. One operation is one atomic operation, one section under the lock of a
`RegistryMulti`, one operation of the message queue, one `park` or one `unpark`. Left out are the
selectors, and the `SelectWakerWrapper` of a multiplexer, in which none of these calls waits.
-/

set_option autoImplicit false

namespace Crossfire.Waiting

open Lib.Programs Crossfire.Waker Crossfire.Registry
open Crossfire.Channel (Side RegKind Cfg)

/-- The flavors of the crate: only the senders of an unbounded channel have no registry. -/
structure Flavor extends Cfg where
  unbounded : kind .tx = .dummy → cap = none
  waits : kind .rx ≠ .dummy

/-- `ArcWaker`: the address of a `WakerInner`, and the handle in it, which never changes. -/
structure ArcWaker where
  ptr : Nat
  waker : ThinWaker Nat
  deriving DecidableEq, Repr

/-- The panics of the code. -/
inductive Panic
  /-- An `unreachable!()`. -/
  | unreachable
  /-- `panic!("state: impossible for async")`. -/
  | impossibleForAsync
  /-- `unwrap` of a missing waker. -/
  | unwrap
  /-- `try_send_oneshot` of a flavor that has none. -/
  | unimplemented
  | debugAssert
  /-- `expect("SendFuture polled after completion")`. -/
  | polledAfterCompletion
  deriving DecidableEq, Repr

/-- `core::task::Poll`. -/
inductive Poll (α : Type)
  | pending
  | ready (a : α)
  deriving DecidableEq, Repr

/-- `TryRecvError`. -/
inductive TryRecvError
  | empty
  | disconnected
  deriving DecidableEq, Repr

/-- `RecvTimeoutError`. -/
inductive RecvTimeoutError
  | timeout
  | disconnected
  deriving DecidableEq, Repr

/-- `TrySendError`. -/
inductive TrySendError (V : Type)
  | full (item : V)
  | disconnected (item : V)

/-- `SendTimeoutError`. -/
inductive SendTimeoutError (V : Type)
  | timeout (item : V)
  | disconnected (item : V)

/-! ## Operations -/

/-- The atomic operations of the code. -/
inductive Op (V : Type)
  | trySend (v : V)
  | trySendOneshot (v : V)
  /-- `try_recv` or `try_recv_final`. -/
  | tryRecv
  /-- `is_tx_closed` or `is_rx_closed`. -/
  | isClosed (x : Side)
  /-- `add_tx` or `add_rx`. -/
  | addHandle (x : Side)
  /-- The `fetch_sub` of `close_tx` or `close_rx`. -/
  | subHandle (x : Side)
  /-- `ArcWaker::new_async` or `ArcWaker::new_blocking`. -/
  | newWaker (waker : ThinWaker Nat)
  | loadState (w : ArcWaker)
  | storeState (w : ArcWaker) (state : WakerState)
  | compareExchange (w : ArcWaker) (current new : WakerState)
  | compareExchangeWeak (w : ArcWaker) (current new : WakerState)
  | getSeq (w : ArcWaker)
  | wakeByRef (w : ArcWaker)
  /-- `Weak::upgrade`. -/
  | upgrade (ptr : Nat)
  /-- `WeakCell::is_empty`. -/
  | cellIsEmpty (x : Side)
  /-- `WeakCell::replace`. -/
  | cellReplace (x : Side) (w : ArcWaker)
  /-- The load of `WeakCell::pop`. -/
  | cellLoad (x : Side)
  /-- The compare-exchange of `WeakCell::pop`. -/
  | cellTake (x : Side) (ptr : Nat)
  /-- The flag byte of a `RegistryMulti`. -/
  | loadFlags (x : Side)
  | regWaker (x : Side) (w : ArcWaker)
  /-- `pop_first` under the lock. -/
  | popFirst (x : Side) (flags : Flags)
  /-- `pop_again` under the lock. -/
  | popAgain (x : Side)
  /-- `_clear_wakers` under the lock. -/
  | clearWakers (x : Side) (oldSeq : Nat) (oneshot : Bool)
  /-- `RegistryMulti::close` takes the lock. -/
  | lock (x : Side)
  | closePop (x : Side)
  /-- The store of the flag byte at the end of `close`, and the release of the lock. -/
  | unlock (x : Side)
  | park
  /-- The deadline of a blocking call has passed, or the `sleep` of a future is ready. -/
  | timer
  /-- There is a backoff, or it is completed. -/
  | backoff
  /-- History: `poll_send` returns, with its `o_waker`. -/
  | polled (r : Poll (Except Unit Unit)) (o : Option ArcWaker)

/-- What an operation answers. -/
@[reducible] def Op.Ans {V : Type} : Op V → Type
  | .trySend _ | .isClosed _ | .cellIsEmpty _ | .timer | .backoff => Bool
  | .trySendOneshot _ => Option Bool
  | .tryRecv => Option V
  | .subHandle _ | .getSeq _ => Nat
  | .newWaker _ => ArcWaker
  | .loadState _ => WakerState
  -- the state that was found, if it was another one
  | .compareExchange _ _ _ | .compareExchangeWeak _ _ _ => Option WakerState
  | .upgrade _ | .popAgain _ => Option ArcWaker
  | .cellLoad _ | .closePop _ => Option Nat
  -- what the cell held, if it was something else
  | .cellTake _ _ => Option (Option Nat)
  | .loadFlags _ => Flags
  | .popFirst _ _ => Option (ArcWaker × Option Nat)
  | .addHandle _ | .storeState _ _ | .wakeByRef _ | .cellReplace _ _ | .regWaker _ _
  | .clearWakers _ _ _ | .lock _ | .unlock _ | .park | .polled _ _ => Unit

/-- The loops of the source, with the variables they change. -/
inductive Fn (V : Type)
  | wake (w : ArcWaker) (state : WakerState)
  | changeStateSmallerEq (w : ArcWaker) (condition target state : WakerState)
  | cellPop (x : Side) (ptr : Nat)
  | fireAgain (x : Side) (lastSeq : Nat)
  | close (x : Side)
  | senderSnooze (o : Option ArcWaker)
  /-- `try_send` until the backoff is completed. -/
  | trySends (v : V)
  /-- `try_recv` until the backoff is completed. -/
  | tryRecvs
  | pollSend (sink : Bool) (ctx : Nat) (v : V) (o : Option ArcWaker)
  | pollItem (stream : Bool) (ctx : Nat) (o : Option ArcWaker)
  | sendBounded (v : V) (deadline : Bool) (o : Option ArcWaker)
  /-- `while state < WakerState::Woken` of `_send_bounded`. -/
  | sendWait (deadline : Bool) (o : Option ArcWaker) (state : WakerState)
  /-- `'MAIN` of `_recv_blocking`. -/
  | recvBlocking (deadline : Bool) (o : Option ArcWaker)
  /-- `while state < WakerState::Woken` of `_recv_blocking`. -/
  | recvWait (deadline : Bool) (o : Option ArcWaker) (state : WakerState)

/-- What a loop returns. -/
@[reducible] def Fn.Res {V : Type} : Fn V → Type
  | .wake _ _ | .fireAgain _ _ => WakeResult
  | .changeStateSmallerEq _ _ _ _ => Except WakerState WakerState
  | .cellPop _ _ => Option ArcWaker
  | .close _ => Unit
  | .senderSnooze _ => WakerState
  | .trySends _ => Bool
  | .tryRecvs => Option V
  | .pollSend _ _ _ _ => Poll (Except Unit Unit) × Option ArcWaker
  | .pollItem _ _ _ => Except TryRecvError V × Option ArcWaker
  | .sendBounded _ _ _ => Except (SendTimeoutError V) Unit
  | .recvBlocking _ _ => Except RecvTimeoutError V
  -- the state at the end of the loop, or a timeout
  | .sendWait _ _ _ | .recvWait _ _ _ => Option WakerState

/-- The operations and the loops. -/
@[reducible] def sig (V : Type) : Sig := ⟨Op V, Op.Ans, Fn V, Fn.Res⟩

/-- Code of the channel. -/
abbrev Code (V α : Type) := Prog (sig V) Panic α

section Code

variable {V : Type} (cfg : Flavor)

/-- One operation. -/
def op (o : Op V) : Code V o.Ans := Prog.perform (S := sig V) o

/-- A loop, from its head. -/
def loop (f : Fn V) : Code V f.Res := Prog.invoke (S := sig V) f

/-- `debug_assert!`. -/
def debugAssert (b : Bool) : Code V Unit := if b then pure () else .panic .debugAssert

/-! ## `waker.rs` -/

namespace ArcWaker

/-- `ArcWaker::wake`. -/
def wake (w : ArcWaker) : Code V WakeResult := do
  let state ← op (.loadState w)
  loop (.wake w state)

/-- One round of `wake`. -/
def wakeBody (w : ArcWaker) (state : WakerState) : Code V WakeResult :=
  if state.isWoken then pure .skip
  else if state = .waiting then do
    op (.storeState w .woken)
    op (.wakeByRef w)
    pure .woken
  else do
    match ← op (.compareExchangeWeak w .init .woken) with
    | none => do
        op (.wakeByRef w)
        pure .next
    | some s => loop (.wake w s)

/-- `change_state_smaller_eq`. -/
def changeStateSmallerEq (w : ArcWaker) (condition target : WakerState) :
    Code V (Except WakerState WakerState) :=
  loop (.changeStateSmallerEq w condition target condition)

/-- One round of `change_state_smaller_eq`. -/
def changeBody (w : ArcWaker) (condition target state : WakerState) :
    Code V (Except WakerState WakerState) := do
  match ← op (.compareExchangeWeak w state target) with
  | none => pure (.ok state)
  | some s =>
    if condition.toNat < s.toNat then pure (.error s)
    else loop (.changeStateSmallerEq w condition target s)

/-- `ArcWaker::abandon`. -/
def abandon (w : ArcWaker) : Code V (Except WakerState Unit) := do
  match ← w.changeStateSmallerEq .waiting .closed with
  | .ok _ => pure (.ok ())
  | .error state => pure (.error state)

/-- `close_wake`. -/
def closeWake (w : ArcWaker) : Code V Bool := do
  match ← w.changeStateSmallerEq .waiting .closed with
  | .ok _ => do
      op (.wakeByRef w)
      pure true
  | .error _ => pure false

/-- `ArcWaker::commit_waiting`. -/
def commitWaiting (w : ArcWaker) : Code V WakerState := do
  match ← op (.compareExchange w .init .waiting) with
  | none => pure .waiting
  | some s => pure s

/-- `ThinWaker::will_wake`. -/
def willWake (w : ArcWaker) (ctx : Nat) : Code V Bool :=
  match w.waker with
  | .async k => pure (cfg.willWake k ctx)
  | .blocking => .panic .unreachable

end ArcWaker

/-! ## `waker_registry.rs` -/

/-- `WeakCell::pop`. -/
def cellPop (x : Side) : Code V (Option ArcWaker) := do
  match ← op (.cellLoad x) with
  | none => pure none
  | some ptr => loop (.cellPop x ptr)

/-- One round of `WeakCell::pop`. -/
def cellPopBody (x : Side) (ptr : Nat) : Code V (Option ArcWaker) := do
  match ← op (.cellTake x ptr) with
  | none => op (.upgrade ptr)
  | some none => pure none
  | some (some ptr') => loop (.cellPop x ptr')

/-- `pop_first`. -/
def popFirst (x : Side) : Code V (Option (ArcWaker × Option Nat)) := do
  let flags ← op (.loadFlags x)
  if flags = .empty then pure none else op (.popFirst x flags)

/-- `pop_again`. -/
def popAgain (x : Side) : Code V (Option ArcWaker) := do
  let flags ← op (.loadFlags x)
  if flags = .empty then pure none else op (.popAgain x)

/-- `clear_wakers`. -/
def clearWakers (x : Side) (w : ArcWaker) (oneshot : Bool) : Code V Unit := do
  let flags ← op (.loadFlags x)
  if flags.waker then do
    let oldSeq ← op (.getSeq w)
    op (.clearWakers x oldSeq oneshot)
  else pure ()

/-- `Registry::fire` of the registry of side `x`. -/
def fire (x : Side) : Code V WakeResult :=
  match cfg.kind x with
  | .dummy => pure .next
  | .single => do
      match ← cellPop x with
      | some w => do
          let _ ← w.wake
          pure .next
      | none => pure .next
  | .multi => do
      match ← popFirst x with
      | some (w, last) => do
          let r ← w.wake
          if r.isDone then pure r
          else
            match last with
            -- `last_seq.wrapping_sub(1)`
            | some last => loop (.fireAgain x (u32 (last + (2 ^ 32 - 1))))
            | none => pure .next
      | none => pure .next

/-- One round of the loop of `fire`. -/
def fireAgainBody (x : Side) (lastSeq : Nat) : Code V WakeResult := do
  match ← popAgain x with
  | none => pure .next
  | some w => do
      let r ← w.wake
      if r.isDone then pure r
      else do
        let seq ← op (.getSeq w)
        if lastSeq ≤ seq then pure .next else loop (.fireAgain x lastSeq)

/-- `Registry::close`. -/
def close (x : Side) : Code V Unit :=
  match cfg.kind x with
  | .dummy => pure ()
  | .single => do
      let _ ← fire cfg x
      pure ()
  | .multi => do
      op (.lock x)
      loop (.close x)
      op (.unlock x)

/-- One round of `close`. -/
def closeBody (x : Side) : Code V Unit := do
  match ← op (.closePop x) with
  | none => pure ()
  | some ptr => do
      match ← op (.upgrade ptr) with
      | some w => do
          let _ ← w.closeWake
          loop (.close x)
      | none => loop (.close x)

/-- `get_waker_state`. -/
def getWakerState (x : Side) (o : Option ArcWaker) : Code V WakerState :=
  match cfg.kind x with
  | .dummy => .panic .unreachable
  | .single => do
      let isEmpty ← op (.cellIsEmpty x)
      pure (if isEmpty then .woken else .init)
  | .multi =>
    match o with
    | some w => op (.loadState w)
    | none => .panic .unreachable

/-- `commit_waiting` of the registry. -/
def commitWaiting (x : Side) (o : Option ArcWaker) : Code V WakerState :=
  match cfg.kind x with
  | .multi =>
    match o with
    | some w => w.commitWaiting
    | none => .panic .unreachable
  | .dummy | .single => pure .init

/-- `abandon_waker`. -/
def abandonWaker (x : Side) (w : ArcWaker) : Code V (Except WakerState Unit) :=
  match cfg.kind x with
  | .multi => do
      match ← w.abandon with
      | .ok _ => do
          clearWakers x w false
          pure (.ok ())
      | .error state => pure (.error state)
  | .dummy | .single => pure (.ok ())

/-- `cancel_waker`; it takes the waker out. -/
def cancelWaker (x : Side) (o : Option ArcWaker) : Code V (Option ArcWaker) :=
  match cfg.kind x, o with
  | .multi, some w => do
      let state ← op (.loadState w)
      if state.isWoken then pure none
      else do
        clearWakers x w true
        pure none
  | _, _ => pure none

/-- `RegistrySend::cancel_reuse_waker`. -/
def cancelReuseWaker (o : Option ArcWaker) (state : WakerState) :
    Code V (WakerState × Option ArcWaker) :=
  match cfg.kind .tx with
  | .multi =>
    match o with
    | some w => do
        let current ← op (.loadState w)
        if current.isWoken then
          pure (if current.toNat < state.toNat then state else current, some w)
        else do
          clearWakers .tx w true
          pure (state, none)
    | none => .panic .unreachable
  | .dummy | .single => pure (state, none)

/-- The registration of a new waker of a task. -/
def regNewAsync (x : Side) (ctx : Nat) : Code V (Option (Poll Unit) × Option ArcWaker) := do
  let w ← op (.newWaker (.async ctx))
  op (.regWaker x w)
  pure (none, some w)

/-- `RegistryMulti::_reg_waker_async` for a waker it was given. -/
def regAgainAsync (x : Side) (ctx : Nat) (w : ArcWaker) :
    Code V (Option (Poll Unit) × Option ArcWaker) := do
  match ← op (.compareExchange w .woken .init) with
  | none => do
      if ← w.willWake cfg ctx then do
        op (.regWaker x w)
        pure (none, some w)
      else regNewAsync x ctx
  | some state =>
    if state.toNat < WakerState.woken.toNat then do
      if ← w.willWake cfg ctx then pure (some .pending, some w)
      else do
        let current ← op (.loadState w)
        (if current.toNat < WakerState.woken.toNat then clearWakers x w true else pure ())
        regNewAsync x ctx
    else if state = .closed then pure (some (.ready ()), some w)
    else .panic .impossibleForAsync

/-- `reg_waker_async`. -/
def regWakerAsync (x : Side) (ctx : Nat) (o : Option ArcWaker) :
    Code V (Option (Poll Unit) × Option ArcWaker) :=
  match cfg.kind x with
  | .dummy => .panic .unreachable
  | .single => do
      let w ← op (.newWaker (.async ctx))
      op (.cellReplace x w)
      pure (none, some w)
  | .multi =>
    match o with
    | some w => regAgainAsync cfg x ctx w
    | none => regNewAsync x ctx

/-- `reg_waker_blocking`. -/
def regWakerBlocking (x : Side) (o : Option ArcWaker) : Code V (Option ArcWaker) :=
  match cfg.kind x with
  | .dummy => .panic .unreachable
  | .single => do
      let w ← op (.newWaker .blocking)
      op (.cellReplace x w)
      pure (some w)
  | .multi =>
    match o with
    | some w => do
        op (.storeState w .init)
        op (.regWaker x w)
        pure (some w)
    | none => do
        let w ← op (.newWaker .blocking)
        op (.regWaker x w)
        pure (some w)

end Code

end Crossfire.Waiting
