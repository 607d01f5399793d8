import Crossfire.Channel.Sends

/-!
# Who owns a sent item

The sends of a channel with the items they carry. An item lies in a `MaybeUninit` of a call, a
future or a poll, and several layers may copy it out of there: the queue when `try_send` succeeds,
the error that hands it back (`assume_init_read`, `assume_init`), and the drop of a future
(`assume_init_drop`). The compiler checks none of this. An `Item` counts these copies.

The agents run the steps of the channel (`stepPc`). What is added is the code around `_send_bounded`
and `poll_send`: a `Frame` is the call, future or sink an agent has, and `Frame.returned` is its
reaction to what they return. Everything that is not a send is an action of the channel.
-/

set_option autoImplicit false

namespace Crossfire.Channel.Items

open Lib.Interleaving Crossfire.Waker Crossfire.Registry Function

/-- The flavors of the crate: only an unbounded channel has no registry for its senders. -/
structure Flavor extends Cfg where
  unbounded : kind .tx = .dummy → cap = none

/-! ## Items -/

/-- `SendError`, `TrySendError` and `SendTimeoutError`; each hands the item back. -/
inductive SendErr
  | disconnected
  | full
  | timeout
  deriving DecidableEq, Repr

/-- What the caller is left with. -/
inductive Outcome (V : Type)
  | ok
  | err (e : SendErr) (item : V)
  /-- The future was dropped before it was completed. -/
  | dropped
  deriving DecidableEq, Repr

/-- An item that was given to a send; the queue counts its own copies. -/
structure Item (V : Type) where
  value : V
  /-- The copies handed back to the caller. -/
  reads : Nat
  /-- The calls of `assume_init_drop`. -/
  drops : Nat
  outcome : Option (Outcome V)
  deriving DecidableEq, Repr

/-- `MaybeUninit::new`. -/
def Item.new {V : Type} (v : V) : Item V := ⟨v, 0, 0, none⟩

/-- The end of an item: sent, handed back or dropped. -/
inductive Fate
  | ok
  | back (e : SendErr)
  | dropped
  deriving DecidableEq, Repr

/-- An item comes to its end. -/
def Item.settle {V : Type} (item : Item V) : Fate → Item V
  | .ok => ⟨item.value, item.reads, item.drops, some .ok⟩
  | .back e => ⟨item.value, item.reads + 1, item.drops, some (.err e item.value)⟩
  | .dropped => ⟨item.value, item.reads, item.drops + 1, some .dropped⟩

/-! ## Frames -/

/-- The call, future or sink of an agent, with the number of its item. -/
inductive Frame
  | none
  /-- `Tx::send`. -/
  | send (m : Nat)
  /-- `Tx::send_timeout`; the deadline may be out of range. -/
  | sendTimeout (m : Nat) (overflow : Bool)
  /-- `Tx::try_send` or `AsyncTx::try_send`. -/
  | trySend (m : Nat)
  /-- A `SendFuture`, or a `SendTimeoutFuture`, with its `tx`. -/
  | future (timed : Bool) (m : Nat)
  /-- Either of them without its `tx`. -/
  | completed
  /-- Inside the drop of a future. -/
  | dropping (m : Nat)
  /-- Inside `SendTimeoutFuture::poll`, after `sleep` was ready. -/
  | timingOut (m : Nat)
  /-- An `AsyncSink` between polls. -/
  | sink
  /-- Inside `AsyncSink::poll_send`. -/
  | polling (m : Nat)
  /-- Inside the drop of a sink. -/
  | sinkDrop
  deriving DecidableEq, Repr

/-- The item in the `MaybeUninit` of a frame. -/
def Frame.item : Frame → Option Nat
  | .send m | .sendTimeout m _ | .trySend m | .future _ m | .dropping m | .timingOut m
  | .polling m => some m
  | .none | .completed | .sink | .sinkDrop => Option.none

/-- What the code around a call, a poll or an `abandon_send_waker` does with its result: the next
frame, and what becomes of the item. A missing branch is an `unreachable!()`. -/
def Frame.returned : Frame → Ret → Bool → Option (Frame × Option (Nat × Fate))
  | .send m, .ok _, _ => some (.none, some (m, .ok))
  | .send m, .disconnected, _ => some (.none, some (m, .back .disconnected))
  | .sendTimeout m _, .ok _, _ => some (.none, some (m, .ok))
  | .sendTimeout m _, .disconnected, _ => some (.none, some (m, .back .disconnected))
  | .sendTimeout m _, .timeout, _ => some (.none, some (m, .back .timeout))
  | .trySend m, .ok _, _ => some (.none, some (m, .ok))
  | .trySend m, .disconnected, _ => some (.none, some (m, .back .disconnected))
  | .trySend m, .full, _ => some (.none, some (m, .back .full))
  | .future _ m, .ok _, _ => some (.completed, some (m, .ok))
  | .future _ m, .disconnected, _ => some (.completed, some (m, .back .disconnected))
  -- a `SendTimeoutFuture` looks at its timer after a `Pending`
  | .future timed m, .pending, ready =>
    some (if timed && ready then .timingOut m else .future timed m, Option.none)
  | .timingOut m, .timeout, _ => some (.completed, some (m, .back .timeout))
  | .dropping m, .timeout, _ => some (.none, some (m, .dropped))
  | .polling m, .ok _, _ => some (.sink, some (m, .ok))
  | .polling m, .disconnected, _ => some (.sink, some (m, .back .disconnected))
  | .polling m, .pending, _ => some (.sink, some (m, .back .full))
  | .sinkDrop, .timeout, _ => some (.none, Option.none)
  | _, _, _ => Option.none

/-- Where the agent goes on: to `abandon_send_waker` when the timer was ready, and a completed
future has no waker. -/
def Frame.resume (cfg : Cfg) : Frame → Pc → Pc
  | .timingOut _, .pending c w => abandonPc cfg c w
  | .completed, _ => .idle
  | _, pc => pc

/-- `send_timeout` after its first `try_send` failed: a deadline out of range is a timeout. -/
def Frame.afterFirst : Frame → Pc → Pc → Pc
  | .sendTimeout _ true, .sendFirst c o, .spin _ _ => .retn c o .timeout
  | _, _, pc' => pc'

/-! ## The system -/

/-- The channel, the frames of the sends and their items. -/
structure St (ι V : Type) where
  ch : Channel.St ι
  frame : ι → Frame
  item : Nat → Option (Item V)

/-- An action of the channel, or of a send with its item. -/
inductive Act (ι V : Type)
  /-- An action of the channel that is not a send. -/
  | chan (a : Channel.Act ι)
  /-- Agent `j` shares the handle of agent `i`, as a second future of it does. -/
  | share (i j : ι)
  | send (i : ι) (v : V)
  | sendTimeout (i : ι) (v : V) (overflow : Bool)
  | trySend (i : ι) (v : V)
  /-- `AsyncTx::send` or `send_with_timer`. -/
  | create (i : ι) (timed : Bool) (v : V)
  /-- A poll of the future with task waker `k`. -/
  | poll (i : ι) (k : Nat)
  | dropFuture (i : ι)
  /-- `into_sink`. -/
  | newSink (i : ι)
  | pollSink (i : ι) (k : Nat) (v : V)
  | dropSink (i : ι)
  | go (i : ι) (choice : Bool)

section Step

variable {ι V : Type} [DecidableEq ι]

/-- No item yet. -/
def St.new (a b : ι) : St ι V := ⟨Channel.St.new a b, fun _ => .none, fun _ => none⟩

/-- Agent `i` goes on with another frame. -/
def St.turn (s : St ι V) (i : ι) (frame : Frame) (pc : Pc) : St ι V :=
  ⟨s.ch.setPc i pc, update s.frame i frame, s.item⟩

/-- The next item is given to agent `i`. -/
def St.give (s : St ι V) (i : ι) (v : V) (frame : Frame) (pc : Pc) : St ι V :=
  ⟨{ s.ch with nextMsg := s.ch.nextMsg + 1 }.setPc i pc, update s.frame i frame,
    update s.item s.ch.nextMsg (some (.new v))⟩

/-- An item comes to its end. -/
def St.settle (s : St ι V) : Option (Nat × Fate) → St ι V
  | none => s
  | some (m, fate) =>
    ⟨s.ch, s.frame, update s.item m ((s.item m).map (Item.settle · fate))⟩

/-- Agent `i` may start to send. -/
def St.Free (s : St ι V) (i : ι) : Prop :=
  s.frame i = .none ∧ s.ch.pc i = .idle ∧ s.ch.handle i = some .tx

instance (s : St ι V) (i : ι) : Decidable (s.Free i) :=
  inferInstanceAs (Decidable (s.frame i = .none ∧ s.ch.pc i = .idle ∧ s.ch.handle i = some .tx))

/-- The actions of the channel that are not part of a send. -/
def St.Allows (s : St ι V) : Channel.Act ι → Prop
  | .call i c => s.frame i = .none ∧ c.side = .rx
  | .poll i _ | .go i _ | .dropFuture i | .dropHandle i | .readSelect i | .dropToken i =>
    s.frame i = .none
  | .clone _ _ | .regSelect _ _ | .cancelSelect _ => True

instance (s : St ι V) : (a : Channel.Act ι) → Decidable (s.Allows a)
  | .call i c => inferInstanceAs (Decidable (s.frame i = .none ∧ c.side = .rx))
  | .poll i _ | .go i _ | .dropFuture i | .dropHandle i | .readSelect i | .dropToken i =>
    inferInstanceAs (Decidable (s.frame i = .none))
  | .clone _ _ | .regSelect _ _ | .cancelSelect _ => instDecidableTrue

variable (cfg : Cfg)

/-- A call, poll or drop of agent `i` returned `r`. -/
def St.returned (s : St ι V) (i : ι) (r : Ret) (ready : Bool) (pc' : Pc) : St ι V :=
  match (s.frame i).returned r ready with
  | some (frame, fate) => (s.turn i frame (frame.resume cfg pc')).settle fate
  | none => s.turn i (s.frame i) .panicked

/-- Agent `i` takes a step of the channel. -/
def St.goes (s : St ι V) (i : ι) (choice : Bool) : Eff → Pc → St ι V
  | .ret c r, pc' => St.returned cfg ⟨s.ch.apply i (.ret c r), s.frame, s.item⟩ i r choice pc'
  | e, pc' =>
    ⟨(s.ch.apply i e).setPc i ((s.frame i).afterFirst (s.ch.pc i) pc'), s.frame, s.item⟩

variable [Fintype ι]

/-- One action; `none` if it is not possible now. -/
def step (s : St ι V) : Act ι V → Option (St ι V)
  | .chan a =>
    if s.Allows a then (Channel.step cfg s.ch a).map fun ch => ⟨ch, s.frame, s.item⟩ else none
  | .share i j =>
    match s.ch.handle i, s.ch.handle j with
    | some x, none => some ⟨s.ch.addHandle x j, s.frame, s.item⟩
    | _, _ => none
  | .send i v =>
    let m := s.ch.nextMsg
    if s.Free i then some (s.give i v (.send m) (startPc (.send m false))) else none
  | .sendTimeout i v overflow =>
    let m := s.ch.nextMsg
    if s.Free i then some (s.give i v (.sendTimeout m overflow) (startPc (.send m true)))
    else none
  | .trySend i v =>
    let m := s.ch.nextMsg
    if s.Free i then some (s.give i v (.trySend m) (startPc (.trySend m))) else none
  | .create i timed v =>
    if s.Free i then some (s.give i v (.future timed s.ch.nextMsg) .idle) else none
  | .poll i k =>
    match s.frame i, s.ch.pc i with
    | .future timed m, .idle =>
      some (s.turn i (.future timed m) (startPc (.pollSend m false k)))
    | .future timed m, .pending _ w =>
      some (s.turn i (.future timed m) (.sendClosed (.pollSend m false k) (some w)))
    -- "polled after completion"
    | .completed, _ => some s
    | _, _ => none
  | .dropFuture i =>
    match s.frame i, s.ch.pc i with
    | .future _ m, .idle => some ((s.turn i .none .idle).settle (some (m, .dropped)))
    | .future _ m, .pending c w => some (s.turn i (.dropping m) (abandonPc cfg c w))
    | .completed, _ => some (s.turn i .none .idle)
    | _, _ => none
  | .newSink i => if s.Free i then some (s.turn i .sink .idle) else none
  | .pollSink i k v =>
    let m := s.ch.nextMsg
    match s.frame i, s.ch.pc i with
    | .sink, .idle => some (s.give i v (.polling m) (startPc (.pollSend m true k)))
    | .sink, .pending _ w | .sink, .kept _ w =>
      some (s.give i v (.polling m) (.sendFirst (.pollSend m true k) (some w)))
    | _, _ => none
  | .dropSink i =>
    match s.frame i, s.ch.pc i with
    | .sink, .idle => some (s.turn i .none .idle)
    | .sink, .pending c w | .sink, .kept c w => some (s.turn i .sinkDrop (abandonPc cfg c w))
    | _, _ => none
  | .go i choice =>
    if s.frame i = .none then none
    else
      (stepPc cfg s.ch i choice (s.ch.pc i)).map fun (e, pc') => St.goes cfg s i choice e pc'

/-- The sends of a channel as an interleaving system. -/
def system (flavor : Flavor) : System (St ι V) (Act ι V) where
  init s := ∃ a b, a ≠ b ∧ s = St.new a b
  step := step flavor.toCfg

end Step

end Crossfire.Channel.Items
