import Crossfire.Waiting.Registry

/-!
# The waiting code with its `o_waker`

The calls, futures, sinks and streams that wait on a channel, in the shape of their source:
`shared.rs`, `async_tx.rs`, `sink.rs`, `async_rx.rs`, `stream.rs`, `blocking_tx.rs` and
`blocking_rx.rs`. The operations of all parties on one channel interleave (`machine`).

The scheduler chooses more than the code allows: any weak reference may fail to upgrade, a bounded
queue may refuse a message although it has room, a `try_recv` may miss a message, and every backoff
and every timer may end at any time. A party is one call, future, sink or stream at a time, with a
handle that counts as one of its own; two futures of one handle are two parties. The `Drop` of
messages is left out.
-/

set_option autoImplicit false

namespace Crossfire.Waiting

open Lib.Programs Crossfire.Waker Crossfire.Registry Function
open Crossfire.Channel (Side RegKind Cfg)

section Code

variable {V : Type} (cfg : Flavor)

/-! ## `shared.rs` -/

/-- A message was sent: wake a receiver. -/
def onSend : Code V WakeResult := fire cfg .rx

/-- A message was received: wake a sender. -/
def onRecv : Code V WakeResult := fire cfg .tx

/-- `try_send` and, if it succeeds, `on_send`. -/
def sendOnce (v : V) : Code V Bool := do
  let sent ← op (.trySend v)
  if sent then do
    let _ ← onSend cfg
    pure true
  else pure false

/-- `try_recv` and, if it succeeds, `on_recv`. -/
def recvOnce : Code V (Option V) := do
  match ← op .tryRecv with
  | some v => do
      let _ ← onRecv cfg
      pure (some v)
  | none => pure none

/-- One round of the backoff of a sender. -/
def trySendsBody (v : V) : Code V Bool := do
  if ← sendOnce cfg v then pure true
  else do
    if ← op .backoff then pure false else loop (.trySends v)

/-- One round of the backoff of a receiver. -/
def tryRecvsBody : Code V (Option V) := do
  match ← recvOnce cfg with
  | some v => pure (some v)
  | none => do
      if ← op .backoff then pure none else loop .tryRecvs

/-- `abandon_send_waker`. -/
def abandonSendWaker (w : ArcWaker) : Code V Unit := do
  match ← abandonWaker cfg .tx w with
  | .ok _ => pure ()
  | .error state =>
    if state = .woken then do
      let _ ← onRecv cfg
      pure ()
    else debugAssert (state = .closed)

/-- `abandon_recv_waker`. -/
def abandonRecvWaker (w : ArcWaker) : Code V Unit := do
  match ← abandonWaker cfg .rx w with
  | .ok _ => pure ()
  | .error state =>
    if state = .woken then do
      let _ ← onSend cfg
      pure ()
    else if state = .closed then pure ()
    else debugAssert (state = .done)

/-- `sender_double_check`. -/
def senderDoubleCheck (sink : Bool) (v : V) (o : Option ArcWaker) :
    Code V (WakerState × Option ArcWaker) :=
  match cfg.cap with
  | none => .panic .unimplemented
  | some _ => do
      match ← op (.trySendOneshot v) with
      | some true => do
          let _ ← onSend cfg
          cancelReuseWaker cfg o .done
      | some false => do
          let state ← (if sink then pure .init else commitWaiting cfg .tx o)
          let closed ← op (.isClosed .rx)
          pure (if closed then .closed else state, o)
      | none => cancelReuseWaker cfg o .woken

/-- One round of `sender_snooze`. -/
def senderSnoozeBody (o : Option ArcWaker) : Code V WakerState := do
  let state ← getWakerState cfg .tx o
  if state.isWoken then pure state
  else do
    if ← op .backoff then pure state else loop (.senderSnooze o)

/-- `check_timeout`. -/
def checkTimeout (deadline : Bool) : Code V Bool := if deadline then op .timer else pure false

/-! ## `async_tx.rs` and `sink.rs` -/

/-- The branch of `poll_send` on the result of `sender_double_check`. -/
def pollSendChecked (sink : Bool) (ctx : Nat) (v : V) (state : WakerState) (o : Option ArcWaker) :
    Code V (Poll (Except Unit Unit) × Option ArcWaker) :=
  if state.toNat < WakerState.woken.toNat then pure (.pending, o)
  else if WakerState.woken.toNat < state.toNat then
    -- `o_waker.take()` on both branches
    if state = .done then pure (.ready (.ok ()), none)
    else do
      debugAssert (state = .closed)
      pure (.ready (.error ()), none)
  else do
    debugAssert (state = .woken)
    loop (.pollSend sink ctx v o)

/-- The registration in the loop of `poll_send`. -/
def pollSendReg (sink : Bool) (ctx : Nat) (v : V) (o : Option ArcWaker) :
    Code V (Poll (Except Unit Unit) × Option ArcWaker) := do
  match ← regWakerAsync cfg .tx ctx o with
  | (some .pending, o) => pure (.pending, o)
  | (some (.ready ()), o) => pure (.ready (.error ()), o)
  | (none, o) => do
      let (state, o) ← senderDoubleCheck cfg sink v o
      pollSendChecked sink ctx v state o

/-- The loop of `poll_send`. -/
def pollSendBody (sink : Bool) (ctx : Nat) (v : V) (o : Option ArcWaker) :
    Code V (Poll (Except Unit Unit) × Option ArcWaker) := do
  if ← sendOnce cfg v then
    -- `o_waker.take()`
    pure (.ready (.ok ()), none)
  else do
    let spins : Bool ← (if o.isNone then op .backoff else pure false)
    let sent : Bool ← (if spins then loop (.trySends v) else pure false)
    if sent then pure (.ready (.ok ()), o) else pollSendReg cfg sink ctx v o

/-- `AsyncTx::poll_send`. -/
def pollSend (sink : Bool) (ctx : Nat) (v : V) (o : Option ArcWaker) :
    Code V (Poll (Except Unit Unit) × Option ArcWaker) := do
  let closed ← op (.isClosed .rx)
  let (r, o) ← (if closed then pure (.ready (.error ()), o) else loop (.pollSend sink ctx v o))
  op (.polled r o)
  pure (r, o)

/-- `SendFuture` and `SendTimeoutFuture`; `tx` is `None` when the future is completed. -/
structure SendFuture (V : Type) where
  tx : Bool
  item : V
  waker : Option ArcWaker

namespace SendFuture

/-- `SendFuture::poll`. -/
def poll (f : SendFuture V) (ctx : Nat) : Code V (Poll (Except V Unit) × SendFuture V) :=
  if f.tx then do
    match ← pollSend false ctx f.item f.waker with
    | (.ready (.ok ()), o) => do
        debugAssert o.isNone
        pure (.ready (.ok ()), ⟨false, f.item, o⟩)
    | (.ready (.error ()), _) => pure (.ready (.error f.item), ⟨false, f.item, none⟩)
    | (.pending, o) => pure (.pending, ⟨true, f.item, o⟩)
  else .panic .polledAfterCompletion

/-- `SendTimeoutFuture::poll`. -/
def pollTimeout (f : SendFuture V) (ctx : Nat) :
    Code V (Poll (Except (SendTimeoutError V) Unit) × SendFuture V) :=
  if f.tx then do
    match ← pollSend false ctx f.item f.waker with
    | (.ready (.ok ()), o) => do
        debugAssert o.isNone
        pure (.ready (.ok ()), ⟨false, f.item, o⟩)
    | (.ready (.error ()), _) =>
      pure (.ready (.error (.disconnected f.item)), ⟨false, f.item, none⟩)
    | (.pending, o) => do
        if ← op .timer then
          match o with
          | some w => do
              abandonSendWaker cfg w
              pure (.ready (.error (.timeout f.item)), ⟨false, f.item, none⟩)
          | none => .panic .unwrap
        else pure (.pending, ⟨true, f.item, o⟩)
  else .panic .polledAfterCompletion

/-- `Drop` of a `SendFuture`. -/
def drop (f : SendFuture V) : Code V Unit :=
  if f.tx then
    match f.waker with
    | some w => abandonSendWaker cfg w
    | none => pure ()
  else pure ()

end SendFuture

/-- `AsyncSink::poll_send` of a sink with the waker `o`. -/
def AsyncSink.pollSend (ctx : Nat) (v : V) (o : Option ArcWaker) :
    Code V (Except (TrySendError V) Unit × Option ArcWaker) := do
  if ← sendOnce cfg v then pure (.ok (), o)
  else do
    match ← Waiting.pollSend true ctx v o with
    | (.ready (.ok ()), o) => pure (.ok (), o)
    | (.ready (.error ()), o) => pure (.error (.disconnected v), o)
    | (.pending, o) => pure (.error (.full v), o)

/-- `Drop` of an `AsyncSink`. -/
def AsyncSink.drop (o : Option ArcWaker) : Code V Unit :=
  match o with
  | some w => abandonSendWaker cfg w
  | none => pure ()

/-! ## `async_rx.rs` and `stream.rs` -/

/-- `on_recv_waker!`: the received message, and `cancel_waker`. -/
def onRecvWaker (v : V) (o : Option ArcWaker) :
    Code V (Except TryRecvError V × Option ArcWaker) := do
  let o ← cancelWaker cfg .rx o
  pure (.ok v, o)

/-- The end of `poll_item`, after its loop. -/
def pollItemEnd (o : Option ArcWaker) : Code V (Except TryRecvError V × Option ArcWaker) := do
  if ← op (.isClosed .tx) then do
    match ← recvOnce cfg with
    | some v => onRecvWaker cfg v o
    | none => pure (.error .disconnected, o)
  else pure (.error .empty, o)

/-- The registration in the loop of `poll_item`. -/
def pollItemReg (stream : Bool) (ctx : Nat) (o : Option ArcWaker) :
    Code V (Except TryRecvError V × Option ArcWaker) := do
  match ← regWakerAsync cfg .rx ctx o with
  | (some _, o) => pollItemEnd cfg o
  | (none, o) => do
      match ← recvOnce cfg with
      | some v => onRecvWaker cfg v o
      | none =>
        if stream then pollItemEnd cfg o
        else do
          let state ← commitWaiting cfg .rx o
          if state = .woken then loop (.pollItem stream ctx o) else pollItemEnd cfg o

/-- The loop of `poll_item`. -/
def pollItemBody (stream : Bool) (ctx : Nat) (o : Option ArcWaker) :
    Code V (Except TryRecvError V × Option ArcWaker) := do
  match ← recvOnce cfg with
  | some v => if o.isNone then pure (.ok v, o) else onRecvWaker cfg v o
  | none => do
      let spins : Bool ← (if o.isNone then op .backoff else pure false)
      match ← (if spins then loop .tryRecvs else pure none) with
      | some v => pure (.ok v, o)
      | none => pollItemReg cfg stream ctx o

/-- `AsyncRx::poll_item`. -/
def pollItem (stream : Bool) (ctx : Nat) (o : Option ArcWaker) :
    Code V (Except TryRecvError V × Option ArcWaker) :=
  loop (.pollItem stream ctx o)

/-- `RecvFuture::poll` of a future with the waker `o`. -/
def RecvFuture.poll (ctx : Nat) (o : Option ArcWaker) :
    Code V (Poll (Except Unit V) × Option ArcWaker) := do
  match ← pollItem false ctx o with
  | (.error .empty, o) => pure (.pending, o)
  | (.error .disconnected, _) => pure (.ready (.error ()), none)
  | (.ok v, o) => do
      debugAssert o.isNone
      pure (.ready (.ok v), o)

/-- `RecvTimeoutFuture::poll`; a timeout leaves the waker to the drop of the future. -/
def RecvFuture.pollTimeout (ctx : Nat) (o : Option ArcWaker) :
    Code V (Poll (Except RecvTimeoutError V) × Option ArcWaker) := do
  match ← pollItem false ctx o with
  | (.error .empty, o) => do
      if ← op .timer then pure (.ready (.error .timeout), o) else pure (.pending, o)
  | (.error .disconnected, o) => pure (.ready (.error .disconnected), o)
  | (.ok v, o) => pure (.ready (.ok v), o)

/-- The drop of a `RecvFuture`, a `RecvTimeoutFuture` or an `AsyncStream`. -/
def RecvFuture.drop (o : Option ArcWaker) : Code V Unit :=
  match o with
  | some w => abandonRecvWaker cfg w
  | none => pure ()

/-- An `AsyncStream`: its waker, and whether it has ended. -/
structure AsyncStream where
  waker : Option ArcWaker
  ended : Bool

namespace AsyncStream

/-- What `poll_item` and `poll_next` do with the result of `AsyncRx::poll_item`. -/
def polled (s : AsyncStream) : Except TryRecvError V × Option ArcWaker →
    Poll (Option V) × AsyncStream
  | (.ok v, o) => (.ready (some v), ⟨o, s.ended⟩)
  | (.error .empty, o) => (.pending, ⟨o, s.ended⟩)
  | (.error .disconnected, o) => (.ready none, ⟨o, true⟩)

/-- `AsyncStream::poll_item`. -/
def pollItem (s : AsyncStream) (ctx : Nat) : Code V (Poll (Option V) × AsyncStream) := do
  let out ← Waiting.pollItem true ctx s.waker
  pure (s.polled out)

/-- `poll_next` of the `Stream`. -/
def pollNext (s : AsyncStream) (ctx : Nat) : Code V (Poll (Option V) × AsyncStream) :=
  if s.ended then pure (.ready none, s)
  else do
    let out ← Waiting.pollItem false ctx s.waker
    pure (s.polled out)

end AsyncStream

/-! ## `blocking_tx.rs` -/

/-- `might_congest`. -/
def mightCongest : Code V Bool :=
  match cfg.kind .tx with
  | .multi => do
      let flags ← op (.loadFlags .tx)
      pure (cfg.cap.isSome && decide (flags ≠ .empty))
  | .dummy | .single => pure false

/-- The wait of `_send_bounded` after `sender_snooze`. -/
def sendPark (deadline : Bool) (o : Option ArcWaker) (state : WakerState) :
    Code V (Option WakerState) :=
  if state.toNat ≤ WakerState.waiting.toNat then do
    if ← checkTimeout deadline then
      match o with
      | some w => do
          abandonSendWaker cfg w
          pure none
      | none => .panic .unwrap
    else do
      op .park
      let state ← getWakerState cfg .tx o
      loop (.sendWait deadline o state)
  else loop (.sendWait deadline o state)

/-- One round of the wait of a blocking sender. -/
def sendWaitBody (deadline : Bool) (o : Option ArcWaker) (state : WakerState) :
    Code V (Option WakerState) :=
  if state.toNat < WakerState.woken.toNat then do
    let congested ← mightCongest cfg
    let state : WakerState ← (if congested then loop (.senderSnooze o) else pure state)
    sendPark cfg deadline o state
  else pure (some state)

/-- The branch of `_send_bounded` on the result of `sender_double_check`. -/
def sendChecked (v : V) (deadline : Bool) (state : WakerState) (o : Option ArcWaker) :
    Code V (Except (SendTimeoutError V) Unit) :=
  if state = .done then pure (.ok ())
  else do
    match ← loop (.sendWait deadline o state) with
    | none => pure (.error (.timeout v))
    | some state =>
      if state = .woken then loop (.sendBounded v deadline o)
      else do
        debugAssert (state = .closed)
        pure (.error (.disconnected v))

/-- The loop of `_send_bounded`. -/
def sendBoundedBody (v : V) (deadline : Bool) (o : Option ArcWaker) :
    Code V (Except (SendTimeoutError V) Unit) := do
  if ← loop (.trySends v) then pure (.ok ())
  else do
    let o ← regWakerBlocking cfg .tx o
    let (state, o) ← senderDoubleCheck cfg false v o
    sendChecked v deadline state o

/-- `_send_bounded`. -/
def sendBounded (v : V) (deadline : Bool) : Code V (Except (SendTimeoutError V) Unit) :=
  loop (.sendBounded v deadline none)

namespace Tx

/-- `Tx::send`. -/
def send (v : V) : Code V (Except V Unit) := do
  if ← op (.isClosed .rx) then pure (.error v)
  else do
    if ← sendOnce cfg v then pure (.ok ())
    else if cfg.cap.isSome then do
      match ← sendBounded v false with
      | .ok _ => pure (.ok ())
      | .error (.disconnected v) => pure (.error v)
      | .error (.timeout _) => .panic .unreachable
    else .panic .unreachable

/-- `send_timeout`; a massive duration makes the deadline `overflow`. -/
def sendTimeout (v : V) (overflow : Bool) : Code V (Except (SendTimeoutError V) Unit) := do
  if ← op (.isClosed .rx) then pure (.error (.disconnected v))
  else do
    if ← sendOnce cfg v then pure (.ok ())
    else if overflow then pure (.error (.timeout v))
    else sendBounded v true

/-- `Tx::try_send`. -/
def trySend (v : V) : Code V (Except (TrySendError V) Unit) := do
  if ← op (.isClosed .rx) then pure (.error (.disconnected v))
  else do
    if ← sendOnce cfg v then pure (.ok ()) else pure (.error (.full v))

end Tx

/-! ## `blocking_rx.rs` -/

/-- One round of the wait of a blocking receiver. -/
def recvWaitBody (deadline : Bool) (o : Option ArcWaker) (state : WakerState) :
    Code V (Option WakerState) :=
  if state.toNat < WakerState.woken.toNat then do
    if ← checkTimeout deadline then
      match o with
      | some w => do
          abandonRecvWaker cfg w
          pure none
      | none => .panic .unwrap
    else do
      op .park
      let state ← getWakerState cfg .rx o
      loop (.recvWait deadline o state)
  else pure (some state)

/-- The `try_recv` before `Disconnected`. -/
def recvLast : Code V (Except RecvTimeoutError V) := do
  match ← recvOnce cfg with
  | some v => pure (.ok v)
  | none => pure (.error .disconnected)

/-- One round of `_recv_blocking`. -/
def recvBlockingBody (deadline : Bool) (o : Option ArcWaker) :
    Code V (Except RecvTimeoutError V) := do
  let o ← regWakerBlocking cfg .rx o
  match ← recvOnce cfg with
  | some v => do
      let _ ← cancelWaker cfg .rx o
      pure (.ok v)
  | none => do
      let state ← commitWaiting cfg .rx o
      if ← op (.isClosed .tx) then recvLast cfg
      else do
        match ← loop (.recvWait deadline o state) with
        | none => pure (.error .timeout)
        | some state =>
          if state = .closed then recvLast cfg
          else do
            match ← loop .tryRecvs with
            | some v => pure (.ok v)
            | none => loop (.recvBlocking deadline o)

/-- `_recv_blocking`. -/
def recvBlocking (deadline : Bool) : Code V (Except RecvTimeoutError V) := do
  match ← recvOnce cfg with
  | some v => pure (.ok v)
  | none => do
      match ← loop .tryRecvs with
      | some v => pure (.ok v)
      | none => loop (.recvBlocking deadline none)

namespace Rx

/-- `Rx::recv`. -/
def recv : Code V (Except Unit V) := do
  match ← recvBlocking cfg false with
  | .ok v => pure (.ok v)
  | .error .disconnected => pure (.error ())
  | .error .timeout => .panic .unreachable

/-- `Rx::try_recv`. -/
def tryRecv : Code V (Except TryRecvError V) := do
  if ← op (.isClosed .tx) then do
    match ← recvOnce cfg with
    | some v => pure (.ok v)
    | none => pure (.error .disconnected)
  else do
    match ← recvOnce cfg with
    | some v => pure (.ok v)
    | none => pure (.error .empty)

/-- `recv_timeout`; a massive duration makes the deadline `overflow`. -/
def recvTimeout (overflow : Bool) : Code V (Except RecvTimeoutError V) :=
  if overflow then do
    match ← tryRecv cfg with
    | .ok v => pure (.ok v)
    | .error .disconnected => pure (.error .disconnected)
    | .error .empty => pure (.error .timeout)
  else recvBlocking cfg true

end Rx

/-! ## Loops -/

/-- The bodies of all loops. -/
def body : (f : Fn V) → Code V f.Res
  | .wake w state => w.wakeBody state
  | .changeStateSmallerEq w condition target state => w.changeBody condition target state
  | .cellPop x ptr => cellPopBody x ptr
  | .fireAgain x lastSeq => fireAgainBody x lastSeq
  | .close x => closeBody x
  | .senderSnooze o => senderSnoozeBody cfg o
  | .trySends v => trySendsBody cfg v
  | .tryRecvs => tryRecvsBody cfg
  | .pollSend sink ctx v o => pollSendBody cfg sink ctx v o
  | .pollItem stream ctx o => pollItemBody cfg stream ctx o
  | .sendBounded v deadline o => sendBoundedBody cfg v deadline o
  | .sendWait deadline o state => sendWaitBody cfg deadline o state
  | .recvBlocking deadline o => recvBlockingBody cfg deadline o
  | .recvWait deadline o state => recvWaitBody cfg deadline o state

end Code

/-! ## Parties -/

/-- A future, sink or stream between two polls. -/
inductive Obj (V : Type)
  | sendFuture (f : SendFuture V)
  | sendTimeoutFuture (f : SendFuture V)
  | recvFuture (waker : Option ArcWaker)
  | recvTimeoutFuture (waker : Option ArcWaker)
  | sink (waker : Option ArcWaker)
  | stream (s : AsyncStream)

/-- What a party has between two commands. -/
structure Local (V : Type) where
  handle : Option Side
  obj : Option (Obj V)

/-- What a party does next. -/
inductive Command (V : Type)
  /-- The party gets a handle. -/
  | clone (x : Side)
  | dropHandle
  | send (v : V)
  | sendTimeout (v : V) (overflow : Bool)
  | trySend (v : V)
  | recv
  | recvTimeout (overflow : Bool)
  | tryRecv
  /-- A future is made, or the handle becomes a sink or a stream. -/
  | make (obj : Obj V)
  /-- A poll of a future, or `poll_next` of a stream. -/
  | poll (ctx : Nat)
  /-- `poll_send` of a sink. -/
  | pollSend (ctx : Nat) (v : V)
  /-- `poll_item` of a stream. -/
  | pollItem (ctx : Nat)
  | dropObj

section Parties

variable {V : Type} (cfg : Flavor)

/-- The side a future, sink or stream belongs to. -/
def Obj.side : Obj V → Side
  | .sendFuture _ | .sendTimeoutFuture _ | .sink _ => .tx
  | .recvFuture _ | .recvTimeoutFuture _ | .stream _ => .rx

/-- It was never polled. -/
def Obj.isNew : Obj V → Bool
  | .sendFuture f | .sendTimeoutFuture f => f.tx && f.waker.isNone
  | .recvFuture waker | .recvTimeoutFuture waker | .sink waker => waker.isNone
  | .stream s => s.waker.isNone && !s.ended

/-- A future, stream or sink is polled. -/
def Obj.poll (ctx : Nat) : Obj V → Option (Code V (Obj V))
  | .sendFuture f => some do
      let (_, f) ← f.poll ctx
      pure (.sendFuture f)
  | .sendTimeoutFuture f => some do
      let (_, f) ← f.pollTimeout cfg ctx
      pure (.sendTimeoutFuture f)
  | .recvFuture waker => some do
      let (_, waker) ← RecvFuture.poll (V := V) ctx waker
      pure (.recvFuture waker)
  | .recvTimeoutFuture waker => some do
      let (_, waker) ← RecvFuture.pollTimeout (V := V) ctx waker
      pure (.recvTimeoutFuture waker)
  | .stream s => some do
      let (_, s) ← s.pollNext (V := V) ctx
      pure (.stream s)
  | .sink _ => none

/-- A future, stream or sink is dropped. -/
def Obj.drop : Obj V → Code V Unit
  | .sendFuture f | .sendTimeoutFuture f => f.drop cfg
  | .recvFuture waker | .recvTimeoutFuture waker => RecvFuture.drop cfg waker
  | .sink waker => AsyncSink.drop cfg waker
  | .stream s => RecvFuture.drop cfg s.waker

/-- `close_tx` or `close_rx`. -/
def dropHandle (x : Side) : Code V Unit := do
  let old ← op (.subHandle x)
  if old ≤ 1 then close cfg x.other else pure ()

/-- A call of a party with a handle and nothing else; its result goes to the user. -/
def Local.calls {α : Type} (l : Local V) (x : Side) (code : Code V α) :
    Option (Code V (Local V)) :=
  match l.obj with
  | none =>
    if l.handle = some x then some do
      let _ ← code
      pure l
    else none
  | some _ => none

/-- The code a party runs for a command. -/
def start (l : Local V) : Command V → Option (Code V (Local V))
  | .clone x =>
    if l.handle = none then some do
      op (.addHandle x)
      pure ⟨some x, none⟩
    else none
  | .dropHandle =>
    match l.handle, l.obj with
    | some x, none => some do
        dropHandle cfg x
        pure ⟨none, none⟩
    | _, _ => none
  | .send v => l.calls .tx (Tx.send cfg v)
  | .sendTimeout v overflow => l.calls .tx (Tx.sendTimeout cfg v overflow)
  | .trySend v => l.calls .tx (Tx.trySend cfg v)
  | .recv => l.calls .rx (Rx.recv (V := V) cfg)
  | .recvTimeout overflow => l.calls .rx (Rx.recvTimeout (V := V) cfg overflow)
  | .tryRecv => l.calls .rx (Rx.tryRecv (V := V) cfg)
  | .make obj =>
    if l.handle = some obj.side ∧ l.obj.isNone ∧ obj.isNew then
      some (pure ⟨l.handle, some obj⟩)
    else none
  | .poll ctx =>
    l.obj.bind fun obj => (obj.poll cfg ctx).map fun code => do
      let obj ← code
      pure ⟨l.handle, some obj⟩
  | .pollSend ctx v =>
    match l.obj with
    | some (.sink waker) => some do
        let (_, waker) ← AsyncSink.pollSend cfg ctx v waker
        pure ⟨l.handle, some (.sink waker)⟩
    | _ => none
  | .pollItem ctx =>
    match l.obj with
    | some (.stream s) => some do
        let (_, s) ← s.pollItem (V := V) ctx
        pure ⟨l.handle, some (.stream s)⟩
    | _ => none
  | .dropObj =>
    l.obj.map fun obj => do
      obj.drop cfg
      pure ⟨l.handle, none⟩

end Parties

/-! ## The shared state -/

/-- `WakerInner`; `owner` is the party whose thread it unparks. -/
structure WakerInner (ι : Type) where
  state : WakerState
  seq : Nat
  waker : ThinWaker Nat
  owner : ι

/-- What the parties share. -/
structure Shared (ι V : Type) where
  queue : List V
  /-- `tx_count` and `rx_count`. -/
  cnt : Side → Nat
  reg : Side → RegistryMulti
  /-- The lock of a `RegistryMulti` is held by `close`. -/
  locked : Side → Bool
  /-- The `WeakCell` of a `RegistrySingle`. -/
  cell : Side → Option Nat
  waker : Nat → WakerInner ι
  nextWaker : Nat
  /-- The park token of a party's thread. -/
  token : ι → Bool
  /-- What the calls of `poll_send` returned, with the `o_waker` they left. -/
  polls : List (Poll (Except Unit Unit) × Option ArcWaker)

/-- What is left to the scheduler. -/
structure Choice where
  /-- Contention, a spurious failure, the end of a backoff, or a timer. -/
  flag : Bool
  /-- The weak references that upgrade. -/
  alive : Nat → Bool

section Exec

variable {ι V : Type} [DecidableEq ι] (cfg : Flavor)

/-- A new channel; party `a` is arbitrary. -/
def Shared.new (a : ι) : Shared ι V where
  queue := []
  cnt _ := 1
  reg _ := .new
  locked _ := false
  cell _ := none
  waker _ := ⟨.init, 0, .blocking, a⟩
  nextWaker := 0
  token _ := false
  polls := []

/-- The waker at `ptr` becomes `inner`. -/
def Shared.setWaker (s : Shared ι V) (ptr : Nat) (inner : WakerInner ι) : Shared ι V :=
  { s with waker := update s.waker ptr inner }

/-- The waker goes to `state`. -/
def Shared.setState (s : Shared ι V) (w : ArcWaker) (state : WakerState) : Shared ι V :=
  s.setWaker w.ptr { s.waker w.ptr with state := state }

/-- The registry of side `x` changes. -/
def Shared.setReg (s : Shared ι V) (x : Side) (r : RegistryMulti) : Shared ι V :=
  { s with reg := update s.reg x r }

/-- The cell of side `x` changes. -/
def Shared.setCell (s : Shared ι V) (x : Side) (ptr : Option Nat) : Shared ι V :=
  { s with cell := update s.cell x ptr }

/-- The count of side `x` changes. -/
def Shared.setCnt (s : Shared ι V) (x : Side) (n : Nat) : Shared ι V :=
  { s with cnt := update s.cnt x n }

/-- The lock of side `x` changes. -/
def Shared.setLocked (s : Shared ι V) (x : Side) (b : Bool) : Shared ι V :=
  { s with locked := update s.locked x b }

/-- The `ArcWaker` of an address. -/
def Shared.arc (s : Shared ι V) (ptr : Nat) : ArcWaker := ⟨ptr, (s.waker ptr).waker⟩

/-- The `u32` sequence number of a waker. -/
def Shared.seq (s : Shared ι V) (ptr : Nat) : Nat := u32 (s.waker ptr).seq

/-- A bounded queue is full. -/
def Shared.isFull (s : Shared ι V) : Bool :=
  match cfg.cap with
  | some n => decide (n ≤ s.queue.length)
  | none => false

/-- `try_send`: a bounded queue may refuse under contention. -/
def Shared.refuses (s : Shared ι V) (flag : Bool) : Bool :=
  s.isFull cfg || (cfg.cap.isSome && flag)

/-- A compare-exchange on the state of a waker. -/
def Shared.exchange (s : Shared ι V) (w : ArcWaker) (current new : WakerState) (spurious : Bool) :
    Option WakerState × Shared ι V :=
  if (s.waker w.ptr).state = current ∧ spurious = false then (none, s.setState w new)
  else (some (s.waker w.ptr).state, s)

/-- A section under the lock of the registry of side `x`. -/
def Shared.underLock {α : Type} (s : Shared ι V) (x : Side) (out : α × Shared ι V) :
    Option (α × Shared ι V) :=
  if s.locked x then none else some out

/-- One operation of party `i`. -/
def exec (s : Shared ι V) (i : ι) (choice : Choice) : (o : Op V) → Option (o.Ans × Shared ι V)
  | .trySend v =>
    if s.refuses cfg choice.flag then some (false, s)
    else some (true, { s with queue := s.queue ++ [v] })
  | .trySendOneshot v =>
    if choice.flag then some (none, s)
    else if s.isFull cfg then some (some false, s)
    else some (some true, { s with queue := s.queue ++ [v] })
  | .tryRecv =>
    if choice.flag then some (none, s) else some (s.queue.head?, { s with queue := s.queue.tail })
  | .isClosed x => some (decide (s.cnt x = 0), s)
  -- a handle is cloned from another one
  | .addHandle x => if s.cnt x = 0 then none else some ((), s.setCnt x (s.cnt x + 1))
  | .subHandle x => some (s.cnt x, s.setCnt x (s.cnt x - 1))
  | .newWaker waker =>
    some (⟨s.nextWaker, waker⟩,
      { s.setWaker s.nextWaker ⟨.init, 0, waker, i⟩ with nextWaker := s.nextWaker + 1 })
  | .loadState w => some ((s.waker w.ptr).state, s)
  | .storeState w state => some ((), s.setState w state)
  | .compareExchange w current new => some (s.exchange w current new false)
  | .compareExchangeWeak w current new => some (s.exchange w current new choice.flag)
  | .getSeq w => some (s.seq w.ptr, s)
  | .wakeByRef w =>
    match (s.waker w.ptr).waker with
    | .blocking =>
      some ((), { s with token := update s.token (s.waker w.ptr).owner true })
    | .async _ => some ((), s)
  | .upgrade ptr => some (if choice.alive ptr then some (s.arc ptr) else none, s)
  | .cellIsEmpty x => some ((s.cell x).isNone, s)
  | .cellReplace x w => some ((), s.setCell x (some w.ptr))
  | .cellLoad x => some (s.cell x, s)
  | .cellTake x ptr =>
    if s.cell x = some ptr then some (none, s.setCell x none) else some (some (s.cell x), s)
  | .loadFlags x => some ((s.reg x).state, s)
  | .regWaker x w =>
    let inner := { s.waker w.ptr with seq := (s.reg x).seq + 1 }
    s.underLock x ((), (s.setReg x ((s.reg x).regWaker w.ptr)).setWaker w.ptr inner)
  | .popFirst x flags =>
    let (popped, r) := (s.reg x).popFirst choice.alive flags
    s.underLock x (popped.map fun (ptr, last) => (s.arc ptr, last), s.setReg x r)
  | .popAgain x =>
    let (popped, r) := (s.reg x).popAgain choice.alive
    s.underLock x (popped.map s.arc, s.setReg x r)
  | .clearWakers x oldSeq oneshot =>
    let r := (s.reg x).clearWakers choice.alive s.seq (fun ptr => (s.waker ptr).state) oldSeq
      oneshot
    s.underLock x ((), s.setReg x r)
  | .lock x => s.underLock x ((), s.setLocked x true)
  | .closePop x => some ((s.reg x).queue.head?, s.setReg x (s.reg x).closePop)
  | .unlock x => some ((), (s.setReg x (s.reg x).closeStore).setLocked x false)
  -- `park` may return without an `unpark`
  | .park =>
    if s.token i || choice.flag then
      some ((), { s with token := update s.token i false })
    else none
  | .timer | .backoff => some (choice.flag, s)
  | .polled r o => some ((), { s with polls := (r, o) :: s.polls })

/-- A new channel: party `a` has the sender and party `b` the receiver. -/
def handles (a b i : ι) : Local V :=
  ⟨if i = a then some .tx else if i = b then some .rx else none, none⟩

/-- All parties on one channel. -/
def machine : Machine (sig V) Panic (Local V) ι (Shared ι V) Choice (Command V) where
  init s l := ∃ a b, a ≠ b ∧ s = Shared.new a ∧ l = handles a b
  exec := exec cfg
  body := body cfg
  start := start cfg

end Exec

end Crossfire.Waiting
