import Crossfire.Lib.Interleaving
import Crossfire.Registry.Multi
import Mathlib.Data.Fintype.Basic

/-!
# A channel at atomic-operation granularity

`shared.rs` with its callers (`blocking_rx.rs`, `blocking_tx.rs`, `async_rx.rs`, `async_tx.rs`,
`stream.rs`, `sink.rs`) and the registries of `waker_registry.rs`. The message queue is a FIFO whose
operations are one step each. Every other step is one atomic operation, one section under a
registry's lock, one `park`, one `unpark`, or one return; the steps of the agents interleave
arbitrarily. `RegistryMulti::close` wakes while it holds the lock, so its section is split into its
atomic operations and the lock is part of the state.

An agent is a thread or a task with one handle of the channel. It runs one call at a time; between
two polls of a future, a stream or a sink it is `pending` (or `kept`, if the last poll was not
`Pending`) and keeps its waker. A step of an agent is an effect on the shared state together with
its next program counter (`stepPc`). What follows `fire`, `_clear_wakers` and `abandon` is a `Cont`,
so that none of them can stand inside another one.

Messages are numbered by the calls that send them. The history records what was pushed, what was
taken and which sends returned `Ok`.
-/

set_option autoImplicit false

namespace Crossfire.Channel

open Lib.Interleaving Crossfire.Waker Crossfire.Registry Function

/-- The two sides of a channel; the registry of a side holds the wakers that wait on it. -/
inductive Side
  | tx
  | rx
  deriving DecidableEq, Repr

/-- The other side. -/
def Side.other : Side → Side
  | .tx => .rx
  | .rx => .tx

/-- `RegistryDummy`, `RegistrySingle` and `RegistryMulti`. -/
inductive RegKind
  | dummy
  | single
  | multi
  deriving DecidableEq, Repr

/-- The flavor of a channel. -/
structure Cfg where
  /-- `None` for an unbounded channel. -/
  cap : Option Nat
  kind : Side → RegKind
  /-- `Waker::will_wake` on task wakers. -/
  willWake : Nat → Nat → Bool
  /-- `try_select` takes the message out of the queue; otherwise it only looks at it. -/
  selectClaims : Bool

/-- The calls on a handle. -/
inductive Call
  /-- `_recv_blocking`. -/
  | recv (deadline : Bool)
  /-- `Tx::send` or `send_timeout`, with `_send_bounded`. -/
  | send (m : Nat) (deadline : Bool)
  /-- `poll_item::<STREAM>` with task waker `k`. -/
  | pollItem (stream : Bool) (k : Nat)
  /-- `poll_send::<SINK>` with task waker `k`. -/
  | pollSend (m : Nat) (sink : Bool) (k : Nat)
  | tryRecv
  | trySend (m : Nat)
  /-- `ChannelSharedSelect::try_select(final_check)`. -/
  | trySelect (final : Bool)
  deriving DecidableEq, Repr

/-- The side of the handle. -/
def Call.side : Call → Side
  | .recv _ | .pollItem _ _ | .tryRecv | .trySelect _ => .rx
  | .send _ _ | .pollSend _ _ _ | .trySend _ => .tx

/-- The message of a send. -/
def Call.msg : Call → Option Nat
  | .send m _ | .pollSend m _ _ | .trySend m => some m
  | .recv _ | .pollItem _ _ | .tryRecv | .trySelect _ => none

/-- The call has a timeout. -/
def Call.hasDeadline : Call → Bool
  | .recv d | .send _ d => d
  | _ => false

/-- The call parks its thread. -/
def Call.isBlocking : Call → Bool
  | .recv _ | .send _ _ => true
  | _ => false

/-- The calls that register a waker. -/
def Call.registers : Call → Bool
  | .recv _ | .send _ _ | .pollItem _ _ | .pollSend _ _ _ => true
  | .tryRecv | .trySend _ | .trySelect _ => false

/-- `STREAM` or `SINK`: the waker stays `Init`. -/
def Call.skipsCommit : Call → Bool
  | .pollItem stream _ => stream
  | .pollSend _ sink _ => sink
  | _ => false

/-- Whom a waker wakes: the task waker of the poll, or the thread of the agent. -/
def Call.thin : Call → ThinWaker Nat
  | .pollItem _ k | .pollSend _ _ k => .async k
  | _ => .blocking

/-- What a call returns. -/
inductive Ret
  | ok (m : Nat)
  | disconnected
  /-- `TryRecvError::Empty` of `try_recv`, or no token. -/
  | empty
  | full
  | timeout
  /-- `Poll::Pending`. -/
  | pending
  /-- The null token of `try_select`. -/
  | nullToken
  deriving DecidableEq, Repr

/-! ## Program counters -/

/-- What `RegistryMulti::fire` does after `wake` if it is not done. -/
inductive Rest
  | stop
  /-- Go on after the first waker; `last` is the last number given out when it was popped. -/
  | first (last : Nat)
  /-- In the loop. -/
  | again (last : Nat)
  deriving DecidableEq, Repr

/-- Program counter of `fire`. -/
inductive FirePc
  /-- `pop_first` loads the flag; `WeakCell::pop` loads the cell. -/
  | first
  /-- `pop_first` under the lock. -/
  | firstLock (flag : Flags)
  /-- `WeakCell::pop`: the compare-exchange. -/
  | cellCas (v : Nat)
  /-- `WeakCell::pop`: `upgrade`. -/
  | upgrade (v : Nat)
  | wake (w : Nat) (pc : WakePc) (rest : Rest)
  /-- `get_seq() >= last_seq`. -/
  | seqCheck (w last : Nat)
  /-- `pop_again` loads the flag. -/
  | again (last : Nat)
  /-- `pop_again` under the lock. -/
  | againLock (last : Nat)
  deriving DecidableEq, Repr

/-- Program counter of `RegistryMulti::close`. -/
inductive ClosePc
  | lock
  | pop
  /-- `close_wake`: the compare-exchange. -/
  | cas (w : Nat) (expected : WakerState)
  /-- `close_wake`: `wake_by_ref`. -/
  | wake (w : Nat)
  | store
  deriving DecidableEq, Repr

/-- What follows `fire`, `_clear_wakers` or `abandon`. -/
inductive Cont
  | idle
  | retn (c : Call) (o : Option Nat) (r : Ret)
  | keep (c : Call) (w : Nat) (r : Ret)
  | cancel (c : Call) (w : Nat) (r : Ret)
  | reuse (c : Call) (w : Nat) (target : WakerState)
  /-- `reg_waker` of a fresh waker. -/
  | reg (c : Call) (w : Nat)
  | spin (c : Call) (o : Option Nat)
  deriving DecidableEq, Repr

/-- Program counter of an agent; `o` is the local `o_waker`. -/
inductive Pc
  | idle
  /-- Between polls; the last one returned `Pending`. -/
  | pending (c : Call) (w : Nat)
  /-- Between polls; the last one returned something else and the waker was kept. -/
  | kept (c : Call) (w : Nat)
  /-- A token of `try_select`, with the message it took out. -/
  | held (m : Option Nat)
  /-- `is_rx_closed` at the start of a send. -/
  | sendClosed (c : Call) (o : Option Nat)
  /-- The `try_send` of `Tx::send`, `try_send` or `AsyncSink::poll_send`. -/
  | sendFirst (c : Call) (o : Option Nat)
  /-- The first `try_recv` of `_recv_blocking`. -/
  | start (c : Call)
  /-- A `try_recv` or `try_send` of the loop before the registration. -/
  | spin (c : Call) (o : Option Nat)
  /-- `reset_init`. -/
  | reset (c : Call) (w : Nat)
  /-- `_reg_waker_async`: `try_change_state(Woken, Init)`. -/
  | recas (c : Call) (w : Nat)
  /-- `_reg_waker_async`: `get_state_relaxed` of a waker that does not wake the task any more. -/
  | stale (c : Call) (w : Nat)
  /-- `reg_waker` of the old waker or of a fresh one. -/
  | reg (c : Call) (o : Option Nat) (fresh : Bool)
  /-- `try_recv_final` or `try_send_oneshot` after the registration. -/
  | double (c : Call) (w : Nat)
  | commit (c : Call) (w : Nat)
  /-- `is_tx_closed` or `is_rx_closed` after `commit_waiting` returned `state`. -/
  | closed (c : Call) (w : Nat) (state : WakerState)
  /-- `might_congest`. -/
  | congest (c : Call) (w : Nat)
  /-- `sender_snooze`. -/
  | snooze (c : Call) (w : Nat)
  | deadline (c : Call) (w : Nat)
  | park (c : Call) (w : Nat)
  /-- `get_waker_state`. -/
  | state (c : Call) (w : Nat)
  /-- The `try_recv` before `Disconnected`. -/
  | last (c : Call) (o : Option Nat)
  /-- `cancel_waker`. -/
  | cancel (c : Call) (w : Nat) (r : Ret)
  /-- `cancel_reuse_waker`. -/
  | reuse (c : Call) (w : Nat) (target : WakerState)
  /-- `_clear_wakers` loads the flag. -/
  | clear (x : Side) (w : Nat) (oneshot : Bool) (k : Cont)
  /-- `_clear_wakers` under the lock. -/
  | clearLock (x : Side) (w : Nat) (oneshot : Bool) (k : Cont)
  | abandon (x : Side) (w : Nat) (expected : WakerState) (k : Cont)
  | fire (x : Side) (pc : FirePc) (k : Cont)
  /-- The call returns and drops its waker. -/
  | retn (c : Call) (o : Option Nat) (r : Ret)
  /-- The poll returns and its future, stream or sink keeps the waker. -/
  | keep (c : Call) (w : Nat) (r : Ret)
  /-- `ChannelShared::try_recv`: `is_tx_closed`. -/
  | tryClosed
  /-- `ChannelShared::try_recv`: the `try_recv` of an open channel. -/
  | tryOpen
  /-- `try_select(true)`: `is_tx_closed`. -/
  | selectClosed
  /-- `try_select`: the queue. -/
  | selectPop (final closed : Bool)
  /-- `read_with_token` of a message that is still in the queue. -/
  | readToken
  | close (x : Side) (pc : ClosePc)
  /-- The panic of `_reg_waker_async`, or an `unreachable!()`. -/
  | panicked
  deriving DecidableEq, Repr

/-- The program counter a continuation starts at. -/
def Cont.pc : Cont → Pc
  | .idle => .idle
  | .retn c o r => .retn c o r
  | .keep c w r => .keep c w r
  | .cancel c w r => .cancel c w r
  | .reuse c w target => .reuse c w target
  | .reg c w => .reg c (some w) true
  | .spin c o => .spin c o

/-- The wakers that the rest of a call keeps alive. -/
def Cont.strong : Cont → List Nat
  | .keep _ w _ | .cancel _ w _ | .reuse _ w _ | .reg _ w => [w]
  | .retn _ o _ | .spin _ o => o.toList
  | .idle => []

/-- The waker that `fire` has upgraded. -/
def FirePc.strong : FirePc → List Nat
  | .wake w _ _ | .seqCheck w _ => [w]
  | _ => []

/-- The waker that `close` has upgraded. -/
def ClosePc.strong : ClosePc → List Nat
  | .cas w _ | .wake w => [w]
  | _ => []

/-- The strong references an agent holds. -/
def Pc.strong : Pc → List Nat
  | .pending _ w | .kept _ w | .reset _ w | .recas _ w | .stale _ w | .double _ w | .commit _ w
  | .closed _ w _ | .congest _ w | .snooze _ w | .deadline _ w | .park _ w | .state _ w
  | .cancel _ w _ | .reuse _ w _ | .keep _ w _ => [w]
  | .sendClosed _ o | .sendFirst _ o | .spin _ o | .reg _ o _ | .last _ o | .retn _ o _ => o.toList
  | .clear _ w _ k | .clearLock _ w _ k | .abandon _ w _ k => w :: k.strong
  | .fire _ pc k => pc.strong ++ k.strong
  | .close _ pc => pc.strong
  | .idle | .held _ | .start _ | .tryClosed | .tryOpen | .selectClosed | .selectPop _ _
  | .readToken | .panicked => []

/-! ## State -/

/-- `WakerInner`, with its history. -/
structure WakerInner (ι : Type) where
  state : WakerState
  seq : Nat
  waker : ThinWaker Nat
  owner : ι
  /-- The registry it is registered in. -/
  side : Side
  /-- `wake_by_ref` was called since the last registration. -/
  issued : Bool

/-- The channel, its registries, its agents and the history. -/
structure St (ι : Type) where
  queue : List Nat
  /-- `tx_count` and `rx_count`. -/
  cnt : Side → Nat
  /-- The `RegistryMulti` of a side. -/
  reg : Side → RegistryMulti
  /-- Its lock is held by `close`. -/
  locked : Side → Bool
  /-- The `WeakCell` of the `RegistrySingle` of a side. -/
  cell : Side → Option Nat
  waker : Nat → WakerInner ι
  /-- Number of wakers allocated so far. -/
  nextWaker : Nat
  pc : ι → Pc
  handle : ι → Option Side
  /-- The park token of an agent's thread. -/
  token : ι → Bool
  nextMsg : Nat
  pushed : List Nat
  taken : List Nat
  /-- Messages whose send returned `Ok`. -/
  sentOk : List Nat
  /-- The last call that returned to an agent. -/
  ret : ι → Option (Call × Ret)

/-- A new channel: agent `a` has the sender and agent `b` the receiver. -/
def St.new {ι : Type} [DecidableEq ι] (a b : ι) : St ι where
  queue := []
  cnt _ := 1
  reg _ := .new
  locked _ := false
  cell _ := none
  waker _ := ⟨.init, 0, .blocking, a, .tx, false⟩
  nextWaker := 0
  pc _ := .idle
  handle i := if i = a then some .tx else if i = b then some .rx else none
  token _ := false
  nextMsg := 0
  pushed := []
  taken := []
  sentOk := []
  ret _ := none

/-- What one step does to the shared state. -/
inductive Eff
  | skip
  | pop
  | push (m : Nat)
  | setState (w : Nat) (state : WakerState)
  /-- `reg_waker` of an old waker. -/
  | reg (x : Side) (w : Nat)
  /-- `reg_waker` of a new waker. -/
  | regNew (x : Side) (waker : ThinWaker Nat)
  /-- `WeakCell::replace` by a new waker. -/
  | swap (x : Side) (waker : ThinWaker Nat)
  /-- A section under the lock. -/
  | registry (x : Side) (r : RegistryMulti)
  | cell (x : Side) (v : Option Nat)
  | lock (x : Side)
  | unlock (x : Side)
  | wakeByRef (w : Nat)
  | park
  | ret (c : Call) (r : Ret)

section Step

variable {ι : Type} [DecidableEq ι]

/-- The waker `w` becomes `inner`. -/
def St.setWaker (s : St ι) (w : Nat) (inner : WakerInner ι) : St ι :=
  { s with waker := update s.waker w inner }

/-- The registry of side `x` becomes `r`. -/
def St.setReg (s : St ι) (x : Side) (r : RegistryMulti) : St ι :=
  { s with reg := update s.reg x r }

/-- Agent `i` goes to `pc`. -/
def St.setPc (s : St ι) (i : ι) (pc : Pc) : St ι := { s with pc := update s.pc i pc }

/-- The waker takes the number of its registration. -/
def St.register (s : St ι) (x : Side) (w : Nat) (inner : WakerInner ι) : St ι :=
  (s.setReg x ((s.reg x).regWaker w)).setWaker w
    { inner with seq := (s.reg x).seq + 1, issued := false }

/-- A new waker of agent `i`. -/
def newWaker (i : ι) (x : Side) (waker : ThinWaker Nat) : WakerInner ι :=
  ⟨.init, 0, waker, i, x, false⟩

/-- `wake_by_ref`: `unpark`, or the wake of a task. -/
def St.wakeByRef (s : St ι) (w : Nat) : St ι :=
  let s' := s.setWaker w { s.waker w with issued := true }
  match (s.waker w).waker with
  | .blocking => { s' with token := update s.token (s.waker w).owner true }
  | .async _ => s'

/-- The effect of a step of agent `i`. -/
def St.apply (s : St ι) (i : ι) : Eff → St ι
  | .skip => s
  | .pop => { s with queue := s.queue.tail, taken := s.taken ++ s.queue.head?.toList }
  | .push m => { s with queue := s.queue ++ [m], pushed := s.pushed ++ [m] }
  | .setState w state => s.setWaker w { s.waker w with state := state }
  | .reg x w => s.register x w (s.waker w)
  | .regNew x waker =>
    { s.register x s.nextWaker (newWaker i x waker) with nextWaker := s.nextWaker + 1 }
  | .swap x waker =>
    { s.setWaker s.nextWaker (newWaker i x waker) with
      cell := update s.cell x (some s.nextWaker), nextWaker := s.nextWaker + 1 }
  | .registry x r => s.setReg x r
  | .cell x v => { s with cell := update s.cell x v }
  | .lock x => { s with locked := update s.locked x true }
  | .unlock x =>
    { s.setReg x (s.reg x).closeStore with locked := update s.locked x false }
  | .wakeByRef w => s.wakeByRef w
  | .park => { s with token := update s.token i false }
  | .ret c r =>
    { s with
      ret := update s.ret i (some (c, r))
      sentOk := match c.side, r with
        | .tx, .ok m => m :: s.sentOk
        | _, _ => s.sentOk }

/-! ## Control flow -/

variable (cfg : Cfg)

/-- A bounded queue is full. -/
def isFull (s : St ι) : Bool :=
  match cfg.cap with
  | some n => decide (n ≤ s.queue.length)
  | none => false

/-- One `try_recv` or `try_send`: the effect and the result if it succeeds. -/
def attempt (s : St ι) (c : Call) : Option (Eff × Ret) :=
  match c.side, c.msg with
  | .rx, _ =>
    match s.queue with
    | [] => none
    | m :: _ => some (.pop, .ok m)
  | .tx, some m => if isFull cfg s then none else some (.push m, .ok m)
  | .tx, none => none

/-- `fire` of the registry of side `x`. -/
def firePc (x : Side) (k : Cont) : Pc := if cfg.kind x = .dummy then k.pc else .fire x .first k

/-- `on_send` or `on_recv` after a successful try. -/
def notify (c : Call) (k : Cont) : Pc := firePc cfg c.side.other k

/-- What follows a successful try of the loop and its notification. -/
def afterTry (c : Call) (o : Option Nat) (r : Ret) : Cont :=
  match c, o with
  | .pollItem _ _, some w => .cancel c w r
  | _, _ => .retn c o r

/-- The way to the next registration. -/
def regPc (c : Call) (o : Option Nat) : Pc :=
  match o, cfg.kind c.side with
  | some w, .multi => if c.isBlocking then .reset c w else .recas c w
  | _, _ => .reg c o true

/-- A parked call checks its deadline first, if it has one. -/
def parkPc (c : Call) (w : Nat) : Pc := if c.hasDeadline then .deadline c w else .park c w

/-- A committed waker waits; a sender with many others looks for congestion first. -/
def waitPc (c : Call) (w : Nat) : Pc :=
  match c, cfg.kind c.side with
  | .send _ _, .multi => .congest c w
  | _, _ => parkPc c w

/-- The branch of `_recv_blocking` and `_send_bounded` on a waker state. -/
def settle (c : Call) (w : Nat) (state : WakerState) : Pc :=
  if state.isWoken then
    match c with
    | .recv _ => if state = .closed then .last c (some w) else .spin c (some w)
    | _ => if state = .woken then .spin c (some w) else .retn c (some w) .disconnected
  else waitPc cfg c w

/-- `abandon_recv_waker` or `abandon_send_waker`, and the return. -/
def abandonPc (c : Call) (w : Nat) : Pc :=
  if cfg.kind c.side = .multi then .abandon c.side w .waiting (.retn c (some w) .timeout)
  else .retn c (some w) .timeout

/-- The branch on the result of `cancel_reuse_waker`. -/
def reused (c : Call) (o : Option Nat) : WakerState → Cont
  | .done => .retn c o (.ok (c.msg.getD 0))
  | .woken => .spin c o
  | _ => .retn c o .disconnected

/-- The branch on the results of `commit_waiting` and the check for a closed channel. -/
def closedPc (c : Call) (w : Nat) (state : WakerState) (isClosed : Bool) : Pc :=
  match c with
  | .pollItem _ _ => if isClosed then .last c (some w) else .keep c w .pending
  | .pollSend _ _ _ =>
    if isClosed then .retn c (some w) .disconnected
    else if state = .woken then .spin c (some w)
    else if state.isWoken then .retn c (some w) .disconnected
    else .keep c w .pending
  | .recv _ => if isClosed then .last c (some w) else settle cfg c w state
  | _ => if isClosed then .retn c (some w) .disconnected else settle cfg c w state

/-- A poll that ends with an error; a sink keeps its waker. -/
def errPc (c : Call) (o : Option Nat) : Pc :=
  match c, o with
  | .pollSend _ true _, some w => .keep c w .disconnected
  | _, _ => .retn c o .disconnected

/-- `fire` after `wake` returned. -/
def afterWake (x : Side) (w : Nat) (rest : Rest) (result : WakeResult) (k : Cont) : Pc :=
  if result.isDone then k.pc
  else
    match rest with
    | .stop => k.pc
    | .first last => .fire x (.again last) k
    | .again last => .fire x (.seqCheck w last) k

/-! ## Steps of an agent -/

variable [Fintype ι]

/-- A weak reference to `w` upgrades. -/
def St.alive (s : St ι) (w : Nat) : Bool := decide (∃ i, w ∈ (s.pc i).strong)

/-- The `u32` sequence number of a waker. -/
def St.seq (s : St ι) (w : Nat) : Nat := u32 (s.waker w).seq

/-- One step of `fire` on the registry of side `x`. -/
def stepFire (s : St ι) (choice : Bool) (x : Side) (k : Cont) : FirePc → Option (Eff × Pc)
  | .first =>
    if cfg.kind x = .multi then
      if (s.reg x).state = .empty then some (.skip, k.pc)
      else some (.skip, .fire x (.firstLock (s.reg x).state) k)
    else
      match s.cell x with
      | none => some (.skip, k.pc)
      | some v => some (.skip, .fire x (.cellCas v) k)
  | .firstLock flag =>
    if s.locked x then none
    else
      match (s.reg x).popFirst s.alive flag with
      | (none, r) => some (.registry x r, k.pc)
      | (some (w, none), r) => some (.registry x r, .fire x (.wake w .load .stop) k)
      | (some (w, some last), r) => some (.registry x r, .fire x (.wake w .load (.first last)) k)
  | .cellCas v =>
    if s.cell x = some v then some (.cell x none, .fire x (.upgrade v) k)
    else
      match s.cell x with
      | none => some (.skip, k.pc)
      | some v' => some (.skip, .fire x (.cellCas v') k)
  | .upgrade v =>
    if s.alive v then some (.skip, .fire x (.wake v .load .stop) k) else some (.skip, k.pc)
  | .wake w (.wakeByRef result) rest => some (.wakeByRef w, afterWake x w rest result k)
  | .wake _ (.returned _) _ => none
  | .wake w pc rest =>
    match wakeStep (s.waker w).state pc choice with
    | (state, .returned result) => some (.setState w state, afterWake x w rest result k)
    | (state, pc') => some (.setState w state, .fire x (.wake w pc' rest) k)
  | .seqCheck w last =>
    -- `last_seq.wrapping_sub(1)`
    if u32 (last + (2 ^ 32 - 1)) ≤ s.seq w then some (.skip, k.pc)
    else some (.skip, .fire x (.again last) k)
  | .again last =>
    if (s.reg x).state = .empty then some (.skip, k.pc)
    else some (.skip, .fire x (.againLock last) k)
  | .againLock last =>
    if s.locked x then none
    else
      match (s.reg x).popAgain s.alive with
      | (none, r) => some (.registry x r, k.pc)
      | (some w, r) => some (.registry x r, .fire x (.wake w .load (.again last)) k)

/-- One step of `RegistryMulti::close` of side `x`. -/
def stepClose (s : St ι) (choice : Bool) (x : Side) : ClosePc → Option (Eff × Pc)
  | .lock => if s.locked x then none else some (.lock x, .close x .pop)
  | .pop =>
    match (s.reg x).queue with
    | [] => some (.skip, .close x .store)
    | w :: _ =>
      if s.alive w then some (.registry x (s.reg x).closePop, .close x (.cas w .waiting))
      else some (.registry x (s.reg x).closePop, .close x .pop)
  | .cas w expected =>
    match abandonStep (s.waker w).state (.cas expected) choice with
    | (state, .ok _) => some (.setState w state, .close x (.wake w))
    | (state, .err _) => some (.setState w state, .close x .pop)
    | (state, .cas expected') => some (.setState w state, .close x (.cas w expected'))
  | .wake w => some (.wakeByRef w, .close x .pop)
  | .store => some (.unlock x, .idle)

/-- `reg_waker` of side `c.side`. -/
def stepReg (s : St ι) (c : Call) (o : Option Nat) (fresh : Bool) : Option (Eff × Pc) :=
  match cfg.kind c.side with
  | .multi =>
    if s.locked c.side then none
    else
      match o, fresh with
      | some w, false => some (.reg c.side w, .double c w)
      | _, _ => some (.regNew c.side c.thin, .double c s.nextWaker)
  | .single => some (.swap c.side c.thin, .double c s.nextWaker)
  | .dummy => some (.skip, .panicked)

/-- `ThinWaker::will_wake` for the task of the poll. -/
def willWake (waker : ThinWaker Nat) (c : Call) : Bool :=
  match waker, c.thin with
  | .async old, .async k => cfg.willWake old k
  | _, _ => false

/-- `_reg_waker_async` on a waker it has: the compare-exchange from `Woken` to `Init`. -/
def stepRecas (s : St ι) (c : Call) (w : Nat) : Option (Eff × Pc) :=
  let same := willWake cfg (s.waker w).waker c
  match (s.waker w).state with
  | .woken => some (.setState w .init, .reg c (some w) (!same))
  | .closed =>
    match c with
    | .pollItem _ _ => some (.skip, .closed c w .closed)
    | .pollSend _ _ _ => some (.skip, errPc c (some w))
    | _ => none
  | .done => some (.skip, .panicked)
  | state =>
    if same then
      match c with
      | .pollItem _ _ => some (.skip, .closed c w state)
      | .pollSend _ _ _ => some (.skip, .keep c w .pending)
      | _ => none
    else some (.skip, .stale c w)

/-- `get_waker_state`. -/
def waiterState (s : St ι) (x : Side) (w : Nat) : WakerState :=
  if cfg.kind x = .multi then (s.waker w).state
  else if (s.cell x).isNone then .woken
  else .init

/-- The failed try of the loop before the registration: `choice` says that the backoff is over. -/
def afterSpin (c : Call) (o : Option Nat) (choice : Bool) : Pc :=
  if choice || (!c.isBlocking && o.isSome) then regPc cfg c o else .spin c o

/-- After a failed double check. -/
def afterDouble (c : Call) (w : Nat) : Pc :=
  if cfg.kind c.side = .multi ∧ c.skipsCommit = false then .commit c w else .closed c w .init

/-- One step of an agent at `pc`: its effect and the next program counter. -/
def stepPc (s : St ι) (i : ι) (choice : Bool) : Pc → Option (Eff × Pc)
  | .sendClosed c o =>
    if s.cnt .rx = 0 then some (.skip, errPc c o)
    else
      match c with
      | .pollSend _ _ _ => some (.skip, .spin c o)
      | _ => some (.skip, .sendFirst c o)
  | .sendFirst c o =>
    match attempt cfg s c, c, o with
    | some (e, r), .pollSend _ _ _, some w => some (e, notify cfg c (.keep c w r))
    | some (e, r), _, _ => some (e, notify cfg c (.retn c o r))
    | none, .pollSend _ _ _, _ => some (.skip, .sendClosed c o)
    | none, .send _ _, _ => some (.skip, .spin c o)
    | none, _, _ => some (.skip, .retn c o .full)
  | .start c =>
    match attempt cfg s c with
    | some (e, r) => some (e, notify cfg c (.retn c none r))
    | none => some (.skip, .spin c none)
  | .spin c o =>
    match attempt cfg s c with
    | some (e, r) => some (e, notify cfg c (afterTry c o r))
    | none => some (.skip, afterSpin cfg c o choice)
  | .reset c w => some (.setState w .init, .reg c (some w) false)
  | .recas c w => stepRecas cfg s c w
  | .stale c w =>
    if (s.waker w).state.isWoken then some (.skip, .reg c (some w) true)
    else some (.skip, .clear c.side w true (.reg c w))
  | .reg c o fresh => stepReg cfg s c o fresh
  | .double c w =>
    match c.side with
    | .rx =>
      match attempt cfg s c with
      | some (e, r) => some (e, notify cfg c (.cancel c w r))
      | none => some (.skip, afterDouble cfg c w)
    | .tx =>
      -- `try_send_oneshot` gives up on contention
      if choice then some (.skip, .reuse c w .woken)
      else
        match attempt cfg s c with
        | some (e, _) => some (e, notify cfg c (.reuse c w .done))
        | none => some (.skip, afterDouble cfg c w)
  | .commit c w =>
    let (state, result) := commitWaiting (s.waker w).state
    match c, result with
    | .pollItem _ _, .woken => some (.setState w state, .spin c (some w))
    | _, _ => some (.setState w state, .closed c w result)
  | .closed c w state => some (.skip, closedPc cfg c w state (decide (s.cnt c.side.other = 0)))
  | .congest c w =>
    if (s.reg c.side).state = .empty then some (.skip, parkPc c w) else some (.skip, .snooze c w)
  | .snooze c w =>
    if (s.waker w).state.isWoken then some (.skip, settle cfg c w (s.waker w).state)
    else if choice then some (.skip, parkPc c w)
    else some (.skip, .snooze c w)
  | .deadline c w => some (.skip, if choice then abandonPc cfg c w else .park c w)
  | .park c w => if s.token i || choice then some (.park, .state c w) else none
  | .state c w => some (.skip, settle cfg c w (waiterState cfg s c.side w))
  | .last c o =>
    match attempt cfg s c, c, o with
    | some (e, r), _, _ => some (e, notify cfg c (afterTry c o r))
    | none, .pollItem _ _, some w =>
      -- a stream or a `RecvTimeoutFuture` keeps the waker, a `RecvFuture` drops it
      some (.skip, if choice then .keep c w .disconnected else .retn c o .disconnected)
    | none, _, _ => some (.skip, .retn c o .disconnected)
  | .cancel c w r =>
    if cfg.kind c.side = .multi ∧ (s.waker w).state.isWoken = false then
      some (.skip, .clear c.side w true (.retn c none r))
    else some (.skip, .retn c (some w) r)
  | .reuse c w target =>
    if cfg.kind c.side = .multi then
      let state := (s.waker w).state
      if state.isWoken then
        let result := if state.toNat < target.toNat then target else state
        some (.skip, (reused c (some w) result).pc)
      else some (.skip, .clear c.side w true (reused c none target))
    else some (.skip, (reused c none target).pc)
  | .clear x w oneshot k =>
    if (s.reg x).state.waker then some (.skip, .clearLock x w oneshot k) else some (.skip, k.pc)
  | .clearLock x w oneshot k =>
    if s.locked x then none
    else
      some (.registry x ((s.reg x).clearWakers s.alive s.seq (fun v => (s.waker v).state)
        (s.seq w) oneshot), k.pc)
  | .abandon x w expected k =>
    match abandonStep (s.waker w).state (.cas expected) choice with
    | (state, .ok _) => some (.setState w state, .clear x w false k)
    | (state, .err current) =>
      some (.setState w state, if current = .woken then firePc cfg x k else k.pc)
    | (state, .cas expected') => some (.setState w state, .abandon x w expected' k)
  | .fire x pc k => stepFire cfg s choice x k pc
  | .retn c _ r => some (.ret c r, .idle)
  | .keep c w r => some (.ret c r, if r = .pending then .pending c w else .kept c w)
  | .tryClosed =>
    if s.cnt .tx = 0 then some (.skip, .last .tryRecv none) else some (.skip, .tryOpen)
  | .tryOpen =>
    match attempt cfg s .tryRecv with
    | some (e, r) => some (e, notify cfg .tryRecv (.retn .tryRecv none r))
    | none => some (.skip, .retn .tryRecv none .empty)
  | .selectClosed => some (.skip, .selectPop true (decide (s.cnt .tx = 0)))
  | .selectPop final closed =>
    match s.queue with
    | m :: _ =>
      if cfg.selectClaims then some (.pop, .held (some m)) else some (.skip, .held none)
    | [] => some (.skip, .retn (.trySelect final) none (if closed then .nullToken else .empty))
  | .readToken =>
    match attempt cfg s (.trySelect false) with
    | some (e, r) => some (e, notify cfg (.trySelect false) (.retn (.trySelect false) none r))
    | none => none
  | .close x pc => stepClose s choice x pc
  | .idle | .pending _ _ | .kept _ _ | .held _ | .panicked => none

/-! ## The system -/

/-- A call starts or ends, a handle is cloned or dropped, or an agent takes a step. -/
inductive Act (ι : Type)
  | call (i : ι) (c : Call)
  /-- Another poll of a future, stream or sink that kept its waker. -/
  | poll (i : ι) (c : Call)
  | go (i : ι) (choice : Bool)
  /-- A future, stream or sink with a waker is dropped. -/
  | dropFuture (i : ι)
  | dropHandle (i : ι)
  | clone (i j : ι)
  | readSelect (i : ι)
  | dropToken (i : ι)
  /-- `reg_select_waker` and `cancel_select_waker` of a `RegistryMulti`. -/
  | regSelect (channelId selector : Nat)
  | cancelSelect (selector : Nat)

/-- The first step of a call. -/
def startPc : Call → Pc
  | .recv d => .start (.recv d)
  | .send m d => .sendClosed (.send m d) none
  | .pollItem stream k => .spin (.pollItem stream k) none
  | .pollSend m true k => .sendFirst (.pollSend m true k) none
  | .pollSend m false k => .sendClosed (.pollSend m false k) none
  | .tryRecv => .tryClosed
  | .trySend m => .sendClosed (.trySend m) none
  | .trySelect true => .selectClosed
  | .trySelect false => .selectPop false false

/-- The first step of a poll with a waker; `c` is the call of the poll before. -/
def repollPc (c c' : Call) (w nextMsg : Nat) (pending : Bool) : Option Pc :=
  match c, c' with
  | .pollItem _ _, .pollItem _ _ => some (.spin c' (some w))
  | .pollSend m false _, .pollSend m' false _ =>
    if m' = m ∧ pending then some (.sendClosed c' (some w)) else none
  | .pollSend m true _, .pollSend m' true _ =>
    -- a sink is handed its message again with every poll
    if m' = nextMsg ∨ m' = m ∧ pending then some (.sendFirst c' (some w)) else none
  | _, _ => none

/-- A call numbers its message. -/
def St.countMsg (s : St ι) (c : Call) : St ι :=
  if c.msg = some s.nextMsg then { s with nextMsg := s.nextMsg + 1 } else s

/-- A new handle of side `x` for agent `j`. -/
def St.addHandle (s : St ι) (x : Side) (j : ι) : St ι :=
  { s with
    cnt := update s.cnt x (s.cnt x + 1)
    handle := update s.handle j (some x) }

/-- Agent `i` gives up its handle of side `x`: `fetch_sub`. -/
def St.dropHandle (s : St ι) (x : Side) (i : ι) : St ι :=
  { s with
    cnt := update s.cnt x (s.cnt x - 1)
    handle := update s.handle i none }

/-- `close_tx` or `close_rx` of agent `i`: the last handle closes the other registry. -/
def closeHandle (s : St ι) (x : Side) (i : ι) : St ι :=
  if s.cnt x ≤ 1 then
    (s.dropHandle x i).setPc i
      (if cfg.kind x.other = .multi then .close x.other .lock else firePc cfg x.other .idle)
  else s.dropHandle x i

/-- One action of the system. -/
def step (s : St ι) : Act ι → Option (St ι)
  | .call i c =>
    if s.pc i = .idle ∧ s.handle i = some c.side ∧ (c.msg = none ∨ c.msg = some s.nextMsg) then
      some ((s.countMsg c).setPc i (startPc c))
    else none
  | .poll i c' =>
    match s.pc i with
    | .pending c w =>
      (repollPc c c' w s.nextMsg true).map fun pc => (s.countMsg c').setPc i pc
    | .kept c w => (repollPc c c' w s.nextMsg false).map fun pc => (s.countMsg c').setPc i pc
    | _ => none
  | .go i choice => (stepPc cfg s i choice (s.pc i)).map fun (e, pc) => (s.apply i e).setPc i pc
  | .dropFuture i =>
    match s.pc i with
    | .pending c w | .kept c w => some (s.setPc i (abandonPc cfg c w))
    | _ => none
  | .dropHandle i =>
    match s.pc i, s.handle i with
    | .idle, some x => some (closeHandle cfg s x i)
    | _, _ => none
  | .clone i j =>
    match s.handle i, s.handle j with
    | some x, none => if cfg.kind x = .single then none else some (s.addHandle x j)
    | _, _ => none
  | .readSelect i =>
    match s.pc i with
    | .held (some m) =>
      some (s.setPc i (notify cfg (.trySelect false) (.retn (.trySelect false) none (.ok m))))
    | .held none => some (s.setPc i .readToken)
    | _ => none
  | .dropToken i =>
    match s.pc i with
    | .held _ => some (s.setPc i .idle)
    | _ => none
  | .regSelect channelId selector =>
    if cfg.kind .rx = .multi ∧ s.locked .rx = false then
      some (s.setReg .rx ((s.reg .rx).regSelectWaker channelId selector))
    else none
  | .cancelSelect selector =>
    if cfg.kind .rx = .multi ∧ s.locked .rx = false then
      some (s.setReg .rx ((s.reg .rx).cancelSelectWaker selector))
    else none

/-- The channel as an interleaving system. -/
def system : System (St ι) (Act ι) where
  init s := ∃ a b, a ≠ b ∧ s = St.new a b
  step := step cfg

end Step

end Crossfire.Channel
