import Crossfire.Lib.Cycle
import Crossfire.Lib.Interleaving
import Crossfire.Registry.Multi

/-!
# `Multiplex`

`select/multiplex.rs` with the `SelectWaker` of `waker_registry.rs` and the senders of its channels.
The queue of a channel is a FIFO whose operations are one step each. Every other step is one atomic
operation, a `park` or an `unpark`; the steps of the consumer and of the senders interleave
arbitrarily. Channels are added between the calls of the consumer.

All channels share one waker, the cell it is popped from and the count of open channels. Since the
cell only ever holds that waker and the `Multiplex` keeps it alive, the cell is a flag.

How a sender waits for room is not part of this model: a send that finds the queue full tries again
at any time or gives up. The senders that `on_recv` wakes are therefore not modelled either.

For every channel the history records what was pushed and what the consumer returned.
-/

set_option autoImplicit false

namespace Crossfire.Multiplex

open Lib.Cycle Lib.Interleaving Crossfire.Waker Crossfire.Registry Function

/-- `MultiplexHandle` with its channel. -/
structure Chan (V : Type) where
  queue : List V
  /-- `None` for an unbounded channel. -/
  cap : Option Nat
  /-- One less than the weight it was added with. -/
  weight : Nat
  txCount : Nat
  /-- `close` of its receiving registry has run. -/
  closed : Bool
  pushed : List V
  returned : List V

/-- The calls on a `Multiplex`. -/
inductive Call
  | recv
  /-- `recv_timeout`; the deadline may be out of range. -/
  | recvTimeout (overflow : Bool)
  | tryRecv
  deriving DecidableEq, Repr

/-- The errors of a call. -/
inductive Err
  | disconnected
  | empty
  | timeout
  deriving DecidableEq, Repr

/-! ## Program counters -/

/-- Which call of `_try_select_all` it is. -/
inductive Scan
  /-- Of `_try_select_cached`. -/
  | cached
  /-- In the loop of `_recv_blocking` before the registration. -/
  | spin
  /-- After the registration; `closing` is what was read of the count of open channels. -/
  | final (closing : Bool)
  /-- The two of `try_recv`. -/
  | tryOpen
  | tryFinal
  deriving DecidableEq, Repr

/-- Program counter of the consumer. -/
inductive Pc (V : Type)
  | idle
  /-- `_try_select_cached` up to `try_recv_cached`. -/
  | cached
  /-- `_try_select_all(start, ..)`: it looked at `idx` last and has `left` rounds to go. -/
  | scan (k : Scan) (start idx left : Nat)
  /-- `init_blocking`: `reset_init`. -/
  | reset (start : Nat)
  /-- `init_blocking`: `WeakCell::replace`. -/
  | replace (start : Nat)
  /-- `init_blocking`: the store of the hint. -/
  | clearHint (start : Nat)
  /-- `get_opened_count` of `_recv_blocking`. -/
  | opened (start : Nat)
  | deadline
  | park
  /-- `get_waker_state`. -/
  | state
  | hint
  /-- `get_opened_count` of `try_recv`. -/
  | tryOpened
  /-- `on_recv` and the return of a message of channel `i`. -/
  | got (i : Nat) (v : V)
  | err (e : Err)
  deriving DecidableEq, Repr

/-- Program counter of `SelectWakerWrapper::wake`. -/
inductive FirePc
  /-- `WeakCell::pop`: the load. -/
  | load
  /-- `WeakCell::pop`: the compare-exchange. -/
  | cas
  | hint
  | wake (pc : WakePc)
  deriving DecidableEq, Repr

/-- Program counter of a sender of channel `c`. -/
inductive SendPc (V : Type)
  | absent
  | idle (c : Nat)
  | trying (c : Nat) (v : V)
  /-- `SelectWaker::close` of the last sender. -/
  | close (c : Nat)
  | fire (c : Nat) (pc : FirePc) (gone : Bool)
  deriving DecidableEq, Repr

/-! ## State -/

/-- The channels, their senders and the receiver. -/
structure St (ι V : Type) where
  /-- `handlers`. -/
  chan : Nat → Chan V
  len : Nat
  /-- `opened_channels`. -/
  opened : Nat
  lastIdx : Nat
  count : Nat
  cell : Bool
  waker : WakerState
  hint : Nat
  /-- The park token of the consumer's thread. -/
  token : Bool
  call : Call
  pc : Pc V
  sender : ι → SendPc V
  /-- `get_unchecked` was passed an index that is out of bounds. -/
  outOfBounds : Bool

/-- No channel yet. -/
def St.new {ι V : Type} : St ι V where
  chan _ := ⟨[], none, 0, 0, true, [], []⟩
  len := 0
  opened := 0
  lastIdx := 0
  count := 0
  cell := false
  waker := .init
  hint := 0
  token := false
  call := .tryRecv
  pc := .idle
  sender _ := .absent
  outOfBounds := false

/-- A call starts, a channel or a sender is added, or somebody takes a step. -/
inductive Act (ι V : Type)
  | call (c : Call)
  /-- `_add_item`; `j` has the new sender. -/
  | add (j : ι) (cap : Option Nat) (weight : Nat)
  | go (choice : Bool)
  | clone (i j : ι)
  /-- `WeakTx::upgrade`. -/
  | upgrade (c : Nat) (j : ι)
  | send (i : ι) (v : V)
  | dropTx (i : ι)
  | goSender (i : ι) (choice : Bool)

section Step

variable {ι V : Type}

/-- The receiver goes to `pc`. -/
def St.setPc (s : St ι V) (pc : Pc V) : St ι V := { s with pc := pc }

/-- Channel `c` becomes `ch`. -/
def St.setChan (s : St ι V) (c : Nat) (ch : Chan V) : St ι V :=
  { s with chan := update s.chan c ch }

/-- `get_unchecked(i)`. -/
def St.index (s : St ι V) (i : Nat) : St ι V :=
  { s with outOfBounds := s.outOfBounds || decide (s.len ≤ i) }

/-! ## The consumer -/

/-- A message of channel `i` is taken; `count` messages may follow it. -/
def St.take (s : St ι V) (i : Nat) (v : V) (rest : List V) (count : Nat) : St ι V :=
  { s with
    chan := update s.chan i { s.chan i with queue := rest }
    lastIdx := i
    count := count
    pc := .got i v }

/-- `_try_select_cached`. -/
def St.tryCached (s : St ι V) (choice : Bool) : St ι V :=
  let s := s.index s.lastIdx
  if 0 < s.count then
    match choice, (s.chan s.lastIdx).queue with
    | true, v :: rest => s.take s.lastIdx v rest (s.count - 1)
    -- `try_recv_cached` may miss a message
    | _, _ => s.setPc (.scan .cached s.lastIdx s.lastIdx (s.len - 1))
  else s.setPc (.scan .cached s.lastIdx s.lastIdx s.len)

/-- One round of `_try_select_all`. -/
def St.tryNext (s : St ι V) (k : Scan) (start idx left : Nat) : St ι V :=
  let s := s.index (next s.len idx)
  let idx := next s.len idx
  match (s.chan idx).queue with
  | v :: rest => s.take idx v rest (s.chan idx).weight
  | [] => s.setPc (.scan k start idx left)

/-- What follows a call of `_try_select_all` that found nothing. -/
def St.scanned (s : St ι V) (start : Nat) (choice : Bool) : Scan → Pc V
  | .cached => .scan .spin start start s.len
  | .spin => if choice then .reset start else .scan .spin start start s.len
  | .final closing => if closing then .err .disconnected else .deadline
  | .tryOpen => .err (if s.call = .tryRecv then .empty else .timeout)
  | .tryFinal => .err .disconnected

/-- One step of the consumer. -/
def St.go (s : St ι V) (choice : Bool) : Option (St ι V) :=
  match s.pc with
  | .idle => none
  | .cached => some (s.tryCached choice)
  | .scan k start _ 0 => some (s.setPc (s.scanned start choice k))
  | .scan k start idx (left + 1) => some (s.tryNext k start idx left)
  | .reset start => some { s with waker := .init, pc := .replace start }
  | .replace start => some { s with cell := true, pc := .clearHint start }
  | .clearHint start => some { s with hint := 0, pc := .opened start }
  | .opened start => some (s.setPc (.scan (.final (decide (s.opened = 0))) start start s.len))
  | .deadline => some (s.setPc (if choice ∧ s.call ≠ .recv then .err .timeout else .park))
  | .park => if s.token ∨ choice then some { s with token := false, pc := .state } else none
  | .state => some (s.setPc (if s.waker.isWoken then .hint else .deadline))
  | .hint => some (s.setPc (.scan .spin s.hint s.hint s.len))
  | .tryOpened =>
    some (s.setPc
      (.scan (if 0 < s.opened then .tryOpen else .tryFinal) s.lastIdx s.lastIdx s.len))
  | .got i v =>
    some ((s.setChan i { s.chan i with returned := (s.chan i).returned ++ [v] }).setPc .idle)
  | .err _ => some (s.setPc .idle)

/-- The first step of a call. -/
def startPc : Call → Pc V
  | .recv | .recvTimeout false => .cached
  | .recvTimeout true | .tryRecv => .tryOpened

/-! ## The senders -/

variable [DecidableEq ι]

/-- Sender `i` goes to `pc`. -/
def St.setSender (s : St ι V) (i : ι) (pc : SendPc V) : St ι V :=
  { s with sender := update s.sender i pc }

/-- A bounded channel is full. -/
def isFull (ch : Chan V) : Bool :=
  match ch.cap with
  | some n => decide (n ≤ ch.queue.length)
  | none => false

/-- `SelectWakerWrapper::wake` is over. -/
def fired (c : Nat) (gone : Bool) : SendPc V := if gone then .absent else .idle c

/-- One step of `SelectWakerWrapper::wake`. -/
def St.fire (s : St ι V) (i : ι) (choice : Bool) (c : Nat) (gone : Bool) : FirePc → Option (St ι V)
  | .load => some (s.setSender i (if s.cell then .fire c .cas gone else fired c gone))
  | .cas =>
    if s.cell then some { s.setSender i (.fire c .hint gone) with cell := false }
    else some (s.setSender i (fired c gone))
  | .hint => some { s.setSender i (.fire c (.wake .load) gone) with hint := c }
  | .wake (.wakeByRef _) => some { s.setSender i (fired c gone) with token := true }
  | .wake (.returned _) => none
  | .wake pc =>
    match wakeStep s.waker pc choice with
    | (state, .returned _) => some { s.setSender i (fired c gone) with waker := state }
    | (state, pc') => some { s.setSender i (.fire c (.wake pc') gone) with waker := state }

/-- One step of a sender. -/
def St.goSender (s : St ι V) (i : ι) (choice : Bool) : Option (St ι V) :=
  match s.sender i with
  | .trying c v =>
    if isFull (s.chan c) then some (s.setSender i (if choice then .idle c else .trying c v))
    else
      some ((s.setChan c { s.chan c with
        queue := (s.chan c).queue ++ [v]
        pushed := (s.chan c).pushed ++ [v] }).setSender i (.fire c .load false))
  | .close c =>
    some { (s.setChan c { s.chan c with closed := true }).setSender i (.fire c .load true) with
      opened := s.opened - 1 }
  | .fire c pc gone => s.fire i choice c gone pc
  | .absent | .idle _ => none

/-- A new handle of channel `c` for `j`: `fetch_add` of `tx_count`. -/
def St.addTx (s : St ι V) (c : Nat) (j : ι) : St ι V :=
  (s.setChan c { s.chan c with txCount := (s.chan c).txCount + 1 }).setSender j (.idle c)

/-- `close_tx`: `fetch_sub` of `tx_count`. -/
def St.closeTx (s : St ι V) (c : Nat) (i : ι) : St ι V :=
  (s.setChan c { s.chan c with txCount := (s.chan c).txCount - 1 }).setSender i
    (if (s.chan c).txCount ≤ 1 then .close c else .absent)

/-- `_add_item`; `weight - 1` wraps in a release build. -/
def St.addItem (s : St ι V) (j : ι) (cap : Option Nat) (weight : Nat) : St ι V :=
  { (s.setChan s.len ⟨[], cap, u32 (weight + (2 ^ 32 - 1)), 1, false, [], []⟩).setSender j
      (.idle s.len) with
    len := s.len + 1
    opened := s.opened + 1
    lastIdx := s.len }

/-- One action of the system. -/
def step (s : St ι V) : Act ι V → Option (St ι V)
  | .call c =>
    match s.pc with
    | .idle => some { s with call := c, pc := startPc c }
    | _ => none
  | .add j cap weight =>
    match s.pc, s.sender j with
    | .idle, .absent => some (s.addItem j cap weight)
    | _, _ => none
  | .go choice => s.go choice
  | .clone i j =>
    match s.sender i, s.sender j with
    | .idle c, .absent => some (s.addTx c j)
    | _, _ => none
  | .upgrade c j =>
    match s.sender j with
    | .absent => if c < s.len ∧ (s.chan c).txCount ≠ 0 then some (s.addTx c j) else none
    | _ => none
  | .send i v =>
    match s.sender i with
    | .idle c => some (s.setSender i (.trying c v))
    | _ => none
  | .dropTx i =>
    match s.sender i with
    | .idle c => some (s.closeTx c i)
    | _ => none
  | .goSender i choice => s.goSender i choice

/-- A `Multiplex` with the senders of its channels as an interleaving system. -/
def system : System (St ι V) (Act ι V) where
  init s := s = St.new
  step := step

end Step

end Crossfire.Multiplex
