import Crossfire.Channel.Model

/-!
# What a step of a channel can do

`PcStep` has one constructor for each branch of `stepPc`, with what the branch has read. Invariants
are proved by cases on it. `step_cases` sorts the actions of the system into steps of an agent and
the starts and ends of its calls (`CallStep`).
-/

set_option autoImplicit false

namespace Crossfire.Channel

open Lib.Interleaving Crossfire.Waker Crossfire.Registry

section Relations

variable {ι : Type} [Fintype ι] (cfg : Cfg)

/-- `fire` of side `x` starts at `pc'`. -/
inductive Fires (x : Side) (k : Cont) : Pc → Prop
  | dummy (kind : cfg.kind x = .dummy) : Fires x k k.pc
  | fire (kind : cfg.kind x ≠ .dummy) : Fires x k (.fire x .first k)

/-- At `pc` the agent tries the queue for call `c`; after a success with result `r` it notifies the
other side and goes on at `k r`. -/
inductive Tries : Pc → Call → (Ret → Cont) → Prop
  | sendKeep (m : Nat) (sink : Bool) (k w : Nat) :
      Tries (.sendFirst (.pollSend m sink k) (some w)) (.pollSend m sink k)
        (.keep (.pollSend m sink k) w)
  | sendFirst (c : Call) (o : Option Nat) : Tries (.sendFirst c o) c (.retn c o)
  | start (c : Call) : Tries (.start c) c (.retn c none)
  | spin (c : Call) (o : Option Nat) : Tries (.spin c o) c (.retn c o)
  | spinCancel (c : Call) (w : Nat) : Tries (.spin c (some w)) c (.cancel c w)
  | last (c : Call) (o : Option Nat) : Tries (.last c o) c (.retn c o)
  | lastCancel (c : Call) (w : Nat) : Tries (.last c (some w)) c (.cancel c w)
  | doubleRx (c : Call) (w : Nat) (side : c.side = .rx) : Tries (.double c w) c (.cancel c w)
  | doubleTx (c : Call) (w : Nat) (side : c.side = .tx) :
      Tries (.double c w) c (fun _ => .reuse c w .done)
  | tryOpen : Tries .tryOpen .tryRecv (.retn .tryRecv none)
  | readToken : Tries .readToken (.trySelect false) (.retn (.trySelect false) none)

/-- Where a waiter goes that saw no wake. -/
inductive Sleeps (c : Call) (w : Nat) : Pc → Prop
  | congest : Sleeps c w (.congest c w)
  | deadline : Sleeps c w (.deadline c w)
  | park : Sleeps c w (.park c w)

/-- Where a waiter goes that read `state`. -/
inductive Settles (c : Call) (w : Nat) (state : WakerState) : Pc → Prop
  | spin (woken : state.isWoken = true) (notClosed : state ≠ .closed) :
      Settles c w state (.spin c (some w))
  | last (closed : state = .closed) (side : c.side = .rx) : Settles c w state (.last c (some w))
  | err (woken : state.isWoken = true) (side : c.side = .rx → c.isBlocking = false) :
      Settles c w state (.retn c (some w) .disconnected)
  | sleep (pc' : Pc) (notWoken : state.isWoken = false) (goes : Sleeps c w pc') :
      Settles c w state pc'

/-- Where `fire` goes after `wake` returned. -/
inductive Wakes (x : Side) (w : Nat) (k : Cont) : Rest → WakeResult → Pc → Prop
  | leave (rest : Rest) (result : WakeResult) (done : result.isDone = true ∨ rest = .stop) :
      Wakes x w k rest result k.pc
  | again (last : Nat) (result : WakeResult) (notDone : result.isDone = false) :
      Wakes x w k (.first last) result (.fire x (.again last) k)
  | seqCheck (last : Nat) (result : WakeResult) (notDone : result.isDone = false) :
      Wakes x w k (.again last) result (.fire x (.seqCheck w last) k)

/-- The steps of an agent inside `fire` on the registry of side `x`. -/
inductive FireStep (s : St ι) (x : Side) (k : Cont) : FirePc → Eff → Pc → Prop
  | none (kind : cfg.kind x = .multi) (empty : (s.reg x).state = .empty) :
      FireStep s x k .first .skip k.pc
  | first (kind : cfg.kind x = .multi) (nonempty : (s.reg x).state ≠ .empty) :
      FireStep s x k .first .skip (.fire x (.firstLock (s.reg x).state) k)
  | cellNone (kind : cfg.kind x ≠ .multi) (cell : s.cell x = none) :
      FireStep s x k .first .skip k.pc
  | cellSome (kind : cfg.kind x ≠ .multi) (v : Nat) (cell : s.cell x = some v) :
      FireStep s x k .first .skip (.fire x (.cellCas v) k)
  | popNone (flag : Flags) (r : RegistryMulti) (unlocked : s.locked x = false)
      (pop : (s.reg x).popFirst s.alive flag = (Option.none, r)) :
      FireStep s x k (.firstLock flag) (.registry x r) k.pc
  | popLast (flag : Flags) (w : Nat) (r : RegistryMulti) (unlocked : s.locked x = false)
      (pop : (s.reg x).popFirst s.alive flag = (some (w, Option.none), r)) :
      FireStep s x k (.firstLock flag) (.registry x r) (.fire x (.wake w .load .stop) k)
  | popFirst (flag : Flags) (w last : Nat) (r : RegistryMulti) (unlocked : s.locked x = false)
      (pop : (s.reg x).popFirst s.alive flag = (some (w, some last), r)) :
      FireStep s x k (.firstLock flag) (.registry x r) (.fire x (.wake w .load (.first last)) k)
  | cellTake (v : Nat) (cell : s.cell x = some v) :
      FireStep s x k (.cellCas v) (.cell x Option.none) (.fire x (.upgrade v) k)
  | cellGone (v : Nat) (cell : s.cell x = Option.none) : FireStep s x k (.cellCas v) .skip k.pc
  | cellOther (v v' : Nat) (cell : s.cell x = some v') :
      FireStep s x k (.cellCas v) .skip (.fire x (.cellCas v') k)
  | upgrade (v : Nat) (alive : s.alive v = true) :
      FireStep s x k (.upgrade v) .skip (.fire x (.wake v .load .stop) k)
  | dead (v : Nat) (dead : s.alive v = false) : FireStep s x k (.upgrade v) .skip k.pc
  | skip (w : Nat) (pc : WakePc) (rest : Rest) (pc' : Pc) (hpc : pc = .load ∨ pc = .cas)
      (woken : (s.waker w).state.isWoken = true) (goes : Wakes x w k rest .skip pc') :
      FireStep s x k (.wake w pc rest) (.setState w (s.waker w).state) pc'
  | toStore (w : Nat) (pc : WakePc) (rest : Rest) (hpc : pc = .load ∨ pc = .cas)
      (waiting : (s.waker w).state = .waiting) :
      FireStep s x k (.wake w pc rest) (.setState w (s.waker w).state)
        (.fire x (.wake w .store rest) k)
  | toCas (w : Nat) (pc : WakePc) (rest : Rest) (hpc : pc = .load ∨ pc = .cas)
      (init : (s.waker w).state = .init) :
      FireStep s x k (.wake w pc rest) (.setState w (s.waker w).state)
        (.fire x (.wake w .cas rest) k)
  | store (w : Nat) (rest : Rest) :
      FireStep s x k (.wake w .store rest) (.setState w .woken)
        (.fire x (.wake w (.wakeByRef .woken) rest) k)
  | cas (w : Nat) (rest : Rest) (init : (s.waker w).state = .init) :
      FireStep s x k (.wake w .cas rest) (.setState w .woken)
        (.fire x (.wake w (.wakeByRef .next) rest) k)
  | wakeByRef (w : Nat) (result : WakeResult) (rest : Rest) (pc' : Pc)
      (goes : Wakes x w k rest result pc') :
      FireStep s x k (.wake w (.wakeByRef result) rest) (.wakeByRef w) pc'
  | stop (w last : Nat) (reached : u32 (last + (2 ^ 32 - 1)) ≤ s.seq w) :
      FireStep s x k (.seqCheck w last) .skip k.pc
  | goOn (w last : Nat) : FireStep s x k (.seqCheck w last) .skip (.fire x (.again last) k)
  | againNone (last : Nat) (empty : (s.reg x).state = .empty) :
      FireStep s x k (.again last) .skip k.pc
  | again (last : Nat) (nonempty : (s.reg x).state ≠ .empty) :
      FireStep s x k (.again last) .skip (.fire x (.againLock last) k)
  | popAgainNone (last : Nat) (r : RegistryMulti) (unlocked : s.locked x = false)
      (pop : (s.reg x).popAgain s.alive = (Option.none, r)) :
      FireStep s x k (.againLock last) (.registry x r) k.pc
  | popAgain (last w : Nat) (r : RegistryMulti) (unlocked : s.locked x = false)
      (pop : (s.reg x).popAgain s.alive = (some w, r)) :
      FireStep s x k (.againLock last) (.registry x r) (.fire x (.wake w .load (.again last)) k)

/-- The steps of an agent inside `RegistryMulti::close` of side `x`. -/
inductive CloseStep (s : St ι) (x : Side) : ClosePc → Eff → Pc → Prop
  | lock (unlocked : s.locked x = false) : CloseStep s x .lock (.lock x) (.close x .pop)
  | drained (queue : (s.reg x).queue = []) : CloseStep s x .pop .skip (.close x .store)
  | pop (w : Nat) (rest : List Nat) (queue : (s.reg x).queue = w :: rest)
      (alive : s.alive w = true) :
      CloseStep s x .pop (.registry x (s.reg x).closePop) (.close x (.cas w .waiting))
  | dead (w : Nat) (rest : List Nat) (queue : (s.reg x).queue = w :: rest)
      (dead : s.alive w = false) :
      CloseStep s x .pop (.registry x (s.reg x).closePop) (.close x .pop)
  | close (w : Nat) (expected : WakerState) (state : (s.waker w).state = expected) :
      CloseStep s x (.cas w expected) (.setState w .closed) (.close x (.wake w))
  | skip (w : Nat) (expected : WakerState) (woken : (s.waker w).state.isWoken = true) :
      CloseStep s x (.cas w expected) (.setState w (s.waker w).state) (.close x .pop)
  | retry (w : Nat) (expected : WakerState) (state : (s.waker w).state.isWoken = false) :
      CloseStep s x (.cas w expected) (.setState w (s.waker w).state)
        (.close x (.cas w (s.waker w).state))
  | wake (w : Nat) : CloseStep s x (.wake w) (.wakeByRef w) (.close x .pop)
  | store : CloseStep s x .store (.unlock x) .idle

/-- The steps of an agent, by program counter. -/
inductive PcStep (s : St ι) (i : ι) : Pc → Eff → Pc → Prop
  -- the start of a send
  | sendGone (c : Call) (o : Option Nat) (gone : s.cnt .rx = 0) :
      PcStep s i (.sendClosed c o) .skip (.retn c o .disconnected)
  | sinkGone (c : Call) (w : Nat) (gone : s.cnt .rx = 0)
      (call : c.registers = true ∧ c.isBlocking = false) :
      PcStep s i (.sendClosed c (some w)) .skip (.keep c w .disconnected)
  | sendOpen (c : Call) (o : Option Nat) (here : s.cnt .rx ≠ 0) :
      PcStep s i (.sendClosed c o) .skip (.sendFirst c o)
  | pollOpen (c : Call) (o : Option Nat) (here : s.cnt .rx ≠ 0) (registers : c.registers = true)
      (async : c.isBlocking = false) : PcStep s i (.sendClosed c o) .skip (.spin c o)
  -- tries of the queue
  | recv (pc : Pc) (c : Call) (k : Ret → Cont) (m : Nat) (rest : List Nat) (pc' : Pc)
      (tries : Tries pc c k) (side : c.side = .rx) (queue : s.queue = m :: rest)
      (goes : Fires cfg c.side.other (k (.ok m)) pc') : PcStep s i pc .pop pc'
  | send (pc : Pc) (c : Call) (k : Ret → Cont) (m : Nat) (pc' : Pc)
      (tries : Tries pc c k) (side : c.side = .tx) (msg : c.msg = some m)
      (room : isFull cfg s = false) (goes : Fires cfg c.side.other (k (.ok m)) pc') :
      PcStep s i pc (.push m) pc'
  | sinkFail (c : Call) (o : Option Nat) (registers : c.registers = true) :
      PcStep s i (.sendFirst c o) .skip (.sendClosed c o)
  | sendFail (c : Call) (o : Option Nat) (blocking : c.isBlocking = true) :
      PcStep s i (.sendFirst c o) .skip (.spin c o)
  | tryFull (c : Call) (o : Option Nat) : PcStep s i (.sendFirst c o) .skip (.retn c o .full)
  | startFail (c : Call) : PcStep s i (.start c) .skip (.spin c none)
  | spinAgain (c : Call) (o : Option Nat) (fail : attempt cfg s c = none) :
      PcStep s i (.spin c o) .skip (.spin c o)
  | spinReset (c : Call) (w : Nat) (fail : attempt cfg s c = none)
      (kind : cfg.kind c.side = .multi) (blocking : c.isBlocking = true) :
      PcStep s i (.spin c (some w)) .skip (.reset c w)
  | spinRecas (c : Call) (w : Nat) (fail : attempt cfg s c = none)
      (kind : cfg.kind c.side = .multi) (async : c.isBlocking = false) :
      PcStep s i (.spin c (some w)) .skip (.recas c w)
  | spinReg (c : Call) (o : Option Nat) (fail : attempt cfg s c = none)
      (kind : o = none ∨ cfg.kind c.side ≠ .multi) :
      PcStep s i (.spin c o) .skip (.reg c o true)
  | doubleCommit (c : Call) (w : Nat) (fail : attempt cfg s c = none)
      (kind : cfg.kind c.side = .multi) : PcStep s i (.double c w) .skip (.commit c w)
  | doubleSkip (c : Call) (w : Nat) (fail : attempt cfg s c = none)
      (kind : cfg.kind c.side ≠ .multi ∨ c.skipsCommit = true) :
      PcStep s i (.double c w) .skip (.closed c w .init)
  | contended (c : Call) (w : Nat) (side : c.side = .tx) :
      PcStep s i (.double c w) .skip (.reuse c w .woken)
  | lastFail (c : Call) (o : Option Nat) (fail : attempt cfg s c = none) :
      PcStep s i (.last c o) .skip (.retn c o .disconnected)
  | lastKeep (c : Call) (w : Nat) (fail : attempt cfg s c = none)
      (call : c.registers = true ∧ c.isBlocking = false) :
      PcStep s i (.last c (some w)) .skip (.keep c w .disconnected)
  | openFail : PcStep s i .tryOpen .skip (.retn .tryRecv none .empty)
  -- the registration
  | reset (c : Call) (w : Nat) :
      PcStep s i (.reset c w) (.setState w .init) (.reg c (some w) false)
  | recas (c : Call) (w : Nat) (fresh : Bool) (state : (s.waker w).state = .woken) :
      PcStep s i (.recas c w) (.setState w .init) (.reg c (some w) fresh)
  | recasClosed (c : Call) (w : Nat) (state : (s.waker w).state = .closed) (side : c.side = .rx) :
      PcStep s i (.recas c w) .skip (.closed c w .closed)
  | recasErr (c : Call) (w : Nat) (state : (s.waker w).state = .closed) (side : c.side = .tx) :
      PcStep s i (.recas c w) .skip (.retn c (some w) .disconnected)
  | recasKeep (c : Call) (w : Nat) (state : (s.waker w).state = .closed) (side : c.side = .tx) :
      PcStep s i (.recas c w) .skip (.keep c w .disconnected)
  | recasPanic (c : Call) (w : Nat) (state : (s.waker w).state = .done) :
      PcStep s i (.recas c w) .skip .panicked
  | recasSame (c : Call) (w : Nat) (state : (s.waker w).state.isWoken = false)
      (side : c.side = .rx) :
      PcStep s i (.recas c w) .skip (.closed c w (s.waker w).state)
  | recasPending (c : Call) (w : Nat) (state : (s.waker w).state.isWoken = false)
      (side : c.side = .tx) :
      PcStep s i (.recas c w) .skip (.keep c w .pending)
  | recasStale (c : Call) (w : Nat) : PcStep s i (.recas c w) .skip (.stale c w)
  | staleWoken (c : Call) (w : Nat) : PcStep s i (.stale c w) .skip (.reg c (some w) true)
  | stale (c : Call) (w : Nat) : PcStep s i (.stale c w) .skip (.clear c.side w true (.reg c w))
  | reg (c : Call) (w : Nat) (kind : cfg.kind c.side = .multi)
      (unlocked : s.locked c.side = false) :
      PcStep s i (.reg c (some w) false) (.reg c.side w) (.double c w)
  | regNew (c : Call) (o : Option Nat) (fresh : Bool) (kind : cfg.kind c.side = .multi)
      (unlocked : s.locked c.side = false) :
      PcStep s i (.reg c o fresh) (.regNew c.side c.thin) (.double c s.nextWaker)
  | swap (c : Call) (o : Option Nat) (fresh : Bool) (kind : cfg.kind c.side = .single) :
      PcStep s i (.reg c o fresh) (.swap c.side c.thin) (.double c s.nextWaker)
  | regDummy (c : Call) (o : Option Nat) (fresh : Bool) (kind : cfg.kind c.side = .dummy) :
      PcStep s i (.reg c o fresh) .skip .panicked
  -- the wait
  | commit (c : Call) (w : Nat) :
      PcStep s i (.commit c w) (.setState w (commitWaiting (s.waker w).state).1)
        (.closed c w (commitWaiting (s.waker w).state).2)
  | commitWoken (c : Call) (w : Nat) (state : (s.waker w).state = .woken)
      (async : c.isBlocking = false) :
      PcStep s i (.commit c w) (.setState w .woken) (.spin c (some w))
  | closedLast (c : Call) (w : Nat) (state : WakerState) (gone : s.cnt c.side.other = 0)
      (side : c.side = .rx) : PcStep s i (.closed c w state) .skip (.last c (some w))
  | closedGone (c : Call) (w : Nat) (state : WakerState) (gone : s.cnt c.side.other = 0)
      (side : c.side = .rx → c.registers = false) :
      PcStep s i (.closed c w state) .skip (.retn c (some w) .disconnected)
  | closedKeep (c : Call) (w : Nat) (state : WakerState) (here : s.cnt c.side.other ≠ 0)
      (async : c.isBlocking = false) : PcStep s i (.closed c w state) .skip (.keep c w .pending)
  | closedSpin (c : Call) (w : Nat) (here : s.cnt c.side.other ≠ 0)
      (async : c.isBlocking = false) :
      PcStep s i (.closed c w .woken) .skip (.spin c (some w))
  | closedErr (c : Call) (w : Nat) (state : WakerState) (here : s.cnt c.side.other ≠ 0)
      (side : c.side = .tx) :
      PcStep s i (.closed c w state) .skip (.retn c (some w) .disconnected)
  | closedSettle (c : Call) (w : Nat) (state : WakerState) (pc' : Pc)
      (here : s.cnt c.side.other ≠ 0) (blocking : c.registers = true → c.isBlocking = true)
      (goes : Settles c w state pc') : PcStep s i (.closed c w state) .skip pc'
  | congestNot (c : Call) (w : Nat) (pc' : Pc) (goes : Sleeps c w pc') :
      PcStep s i (.congest c w) .skip pc'
  | congest (c : Call) (w : Nat) : PcStep s i (.congest c w) .skip (.snooze c w)
  | snoozeWoken (c : Call) (w : Nat) (pc' : Pc) (state : (s.waker w).state.isWoken = true)
      (goes : Settles c w (s.waker w).state pc') : PcStep s i (.snooze c w) .skip pc'
  | snoozeDone (c : Call) (w : Nat) (pc' : Pc) (goes : Sleeps c w pc') :
      PcStep s i (.snooze c w) .skip pc'
  | snooze (c : Call) (w : Nat) : PcStep s i (.snooze c w) .skip (.snooze c w)
  | timeout (c : Call) (w : Nat) (kind : cfg.kind c.side = .multi) :
      PcStep s i (.deadline c w) .skip (.abandon c.side w .waiting (.retn c (some w) .timeout))
  | timeoutSingle (c : Call) (w : Nat) (kind : cfg.kind c.side ≠ .multi) :
      PcStep s i (.deadline c w) .skip (.retn c (some w) .timeout)
  | deadline (c : Call) (w : Nat) : PcStep s i (.deadline c w) .skip (.park c w)
  | park (c : Call) (w : Nat) : PcStep s i (.park c w) .park (.state c w)
  | state (c : Call) (w : Nat) (pc' : Pc) (goes : Settles c w (waiterState cfg s c.side w) pc') :
      PcStep s i (.state c w) .skip pc'
  -- the end of a registration
  | cancel (c : Call) (w : Nat) (r : Ret) :
      PcStep s i (.cancel c w r) .skip (.clear c.side w true (.retn c none r))
  | cancelled (c : Call) (w : Nat) (r : Ret) :
      PcStep s i (.cancel c w r) .skip (.retn c (some w) r)
  | reuseWoken (c : Call) (w : Nat) (target state : WakerState)
      (kind : cfg.kind c.side = .multi) (woken : (s.waker w).state.isWoken = true)
      (hstate : state = target ∨ state = (s.waker w).state) :
      PcStep s i (.reuse c w target) .skip (reused c (some w) state).pc
  | reuseClear (c : Call) (w : Nat) (target : WakerState) :
      PcStep s i (.reuse c w target) .skip (.clear c.side w true (reused c none target))
  | reuse (c : Call) (w : Nat) (target : WakerState) (kind : cfg.kind c.side ≠ .multi) :
      PcStep s i (.reuse c w target) .skip (reused c none target).pc
  | clear (x : Side) (w : Nat) (oneshot : Bool) (k : Cont) :
      PcStep s i (.clear x w oneshot k) .skip (.clearLock x w oneshot k)
  | clearSkip (x : Side) (w : Nat) (oneshot : Bool) (k : Cont) :
      PcStep s i (.clear x w oneshot k) .skip k.pc
  | clearLock (x : Side) (w : Nat) (oneshot : Bool) (k : Cont) (unlocked : s.locked x = false) :
      PcStep s i (.clearLock x w oneshot k)
        (.registry x ((s.reg x).clearWakers s.alive s.seq (fun v => (s.waker v).state) (s.seq w)
          oneshot)) k.pc
  | abandonOk (x : Side) (w : Nat) (expected : WakerState) (k : Cont) :
      PcStep s i (.abandon x w expected k) (.setState w .closed) (.clear x w false k)
  | abandonFire (x : Side) (w : Nat) (expected : WakerState) (k : Cont) (pc' : Pc)
      (goes : Fires cfg x k pc') :
      PcStep s i (.abandon x w expected k) (.setState w (s.waker w).state) pc'
  | abandonErr (x : Side) (w : Nat) (expected : WakerState) (k : Cont) :
      PcStep s i (.abandon x w expected k) (.setState w (s.waker w).state) k.pc
  | abandonRetry (x : Side) (w : Nat) (expected expected' : WakerState) (k : Cont) :
      PcStep s i (.abandon x w expected k) (.setState w (s.waker w).state)
        (.abandon x w expected' k)
  | fire (x : Side) (pc : FirePc) (k : Cont) (pc' : Pc) (e : Eff)
      (step : FireStep cfg s x k pc e pc') : PcStep s i (.fire x pc k) e pc'
  | retn (c : Call) (o : Option Nat) (r : Ret) : PcStep s i (.retn c o r) (.ret c r) .idle
  | keepPending (c : Call) (w : Nat) :
      PcStep s i (.keep c w .pending) (.ret c .pending) (.pending c w)
  | keep (c : Call) (w : Nat) (r : Ret) (hr : r ≠ .pending) :
      PcStep s i (.keep c w r) (.ret c r) (.kept c w)
  -- `try_recv` and `try_select`
  | tryLast (gone : s.cnt .tx = 0) : PcStep s i .tryClosed .skip (.last .tryRecv none)
  | tryClosed : PcStep s i .tryClosed .skip .tryOpen
  | selectClosed :
      PcStep s i .selectClosed .skip (.selectPop true (decide (s.cnt .tx = 0)))
  | selectClaim (final closed : Bool) (m : Nat) (rest : List Nat) (queue : s.queue = m :: rest) :
      PcStep s i (.selectPop final closed) .pop (.held (some m))
  | selectPeek (final closed : Bool) : PcStep s i (.selectPop final closed) .skip (.held none)
  | selectNone (final closed : Bool) (queue : s.queue = []) :
      PcStep s i (.selectPop final closed) .skip
        (.retn (.trySelect final) none (if closed then .nullToken else .empty))
  | close (x : Side) (pc : ClosePc) (pc' : Pc) (e : Eff) (step : CloseStep s x pc e pc') :
      PcStep s i (.close x pc) e pc'

end Relations

section Steps

variable {ι : Type} [Fintype ι] {cfg : Cfg} {s : St ι} {i : ι} {choice : Bool} {e : Eff} {pc' : Pc}

/-! ## Every step is one of the listed ones -/

-- Tagging generates the equations of these functions once, before the proofs below need them.
section
attribute [local simp] stepPc stepFire stepClose stepReg stepRecas step
end

theorem fires_firePc (x : Side) (k : Cont) : Fires cfg x k (firePc cfg x k) := by
  unfold firePc
  split_ifs with hkind
  · exact .dummy hkind
  · exact .fire hkind

theorem sleeps_parkPc (c : Call) (w : Nat) : Sleeps c w (parkPc c w) := by
  unfold parkPc
  split_ifs
  · exact .deadline
  · exact .park

theorem sleeps_waitPc (c : Call) (w : Nat) : Sleeps c w (waitPc cfg c w) := by
  cases c with
  | send m d =>
    unfold waitPc
    split
    · next hc _ => cases hc; exact .congest
    · exact sleeps_parkPc _ w
  | _ => exact sleeps_parkPc _ w

/-- What a call does with a state. -/
theorem settles_settle (c : Call) (w : Nat) (state : WakerState) :
    Settles c w state (settle cfg c w state) := by
  unfold settle
  by_cases hwoken : state.isWoken = true
  · rw [if_pos hwoken]
    cases c with
    | recv d =>
      by_cases hclosed : state = .closed
      · rw [if_pos hclosed]
        exact .last hclosed rfl
      · rw [if_neg hclosed]
        exact .spin hwoken hclosed
    | send m d | pollSend m sink k | trySend m =>
      dsimp only
      split_ifs with hstate
      · exact .spin hwoken (by rw [hstate]; decide)
      · exact .err hwoken nofun
    | pollItem stream k | tryRecv | trySelect final =>
      dsimp only
      split_ifs with hstate
      · exact .spin hwoken (by rw [hstate]; decide)
      · exact .err hwoken fun _ => rfl
  · rw [if_neg hwoken]
    exact .sleep _ (Bool.eq_false_iff.mpr hwoken) (sleeps_waitPc c w)

theorem wakes_afterWake (x : Side) (w : Nat) (rest : Rest) (result : WakeResult) (k : Cont) :
    Wakes x w k rest result (afterWake x w rest result k) := by
  unfold afterWake
  split_ifs with hdone
  · exact .leave rest result (.inl hdone)
  · cases rest with
    | stop => exact .leave .stop result (.inr rfl)
    | first last => exact .again last result (Bool.eq_false_iff.mpr hdone)
    | again last => exact .seqCheck last result (Bool.eq_false_iff.mpr hdone)

variable {c : Call}

omit [Fintype ι] in
/-- What a successful try does. -/
theorem attempt_some {r : Ret} (h : attempt cfg s c = some (e, r)) :
    (∃ m rest, c.side = .rx ∧ s.queue = m :: rest ∧ e = .pop ∧ r = .ok m) ∨
      ∃ m, c.side = .tx ∧ c.msg = some m ∧ isFull cfg s = false ∧ e = .push m ∧ r = .ok m := by
  unfold attempt at h
  split at h
  · next hside =>
      split at h
      · cases h
      · next m rest hqueue => cases h; exact .inl ⟨m, rest, hside, hqueue, rfl, rfl⟩
  · next m hside hmsg =>
      split_ifs at h with hfull
      cases h
      exact .inr ⟨m, hside, hmsg, Bool.eq_false_iff.mpr hfull, rfl, rfl⟩
  · cases h

omit [Fintype ι] in
/-- What a receiver saw whose try failed. -/
theorem queue_eq_nil_of_attempt (h : attempt cfg s c = none) (hside : c.side = .rx) :
    s.queue = [] := by
  unfold attempt at h
  rw [hside] at h
  cases hqueue : s.queue with
  | nil => rfl
  | cons m rest => simp [hqueue] at h

omit [Fintype ι] in
/-- What a sender saw whose try failed. -/
theorem isFull_of_attempt (h : attempt cfg s c = none) (hside : c.side = .tx) :
    isFull cfg s = true := by
  unfold attempt at h
  rw [hside] at h
  cases c with
  | send m d | pollSend m sink k | trySend m => simpa [Call.msg] using h
  | _ => cases hside

/-- A call tries the queue. -/
theorem pcStep_of_tries {pc : Pc} {k : Ret → Cont} {r : Ret} (htries : Tries pc c k)
    (h : attempt cfg s c = some (e, r)) : PcStep cfg s i pc e (notify cfg c (k r)) := by
  rcases attempt_some h with ⟨m, rest, hside, hqueue, rfl, rfl⟩ | ⟨m, hside, hmsg, hroom, rfl, rfl⟩
  · exact .recv pc c k m rest _ htries hside hqueue (fires_firePc _ _)
  · exact .send pc c k m _ htries hside hmsg hroom (fires_firePc _ _)

variable {x : Side} {w : Nat}

/-- The branch of `wake` on the state it has seen. -/
theorem fireStep_of_branch {pc : WakePc} {rest : Rest} {k : Cont} (hpc : pc = .load ∨ pc = .cas)
    (h : (match ((s.waker w).state, wakeBranch (s.waker w).state) with
      | (state, .returned result) => some (Eff.setState w state, afterWake x w rest result k)
      | (state, pc') => some (.setState w state, .fire x (.wake w pc' rest) k)) = some (e, pc')) :
    FireStep cfg s x k (.wake w pc rest) e pc' := by
  rcases wakeBranch_cases (s.waker w).state with ⟨hb, hw⟩ | ⟨hb, hw⟩ | ⟨hb, hw⟩
  · rw [hb] at h
    cases h
    exact .skip w pc rest _ hpc hw (wakes_afterWake x w rest _ k)
  · rw [hb] at h
    cases h
    exact .toStore w pc rest hpc hw
  · rw [hb] at h
    cases h
    exact .toCas w pc rest hpc hw

/-- A step of `fire`. -/
theorem fireStep_of_stepFire {k : Cont} {pc : FirePc}
    (h : stepFire cfg s choice x k pc = some (e, pc')) : FireStep cfg s x k pc e pc' := by
  cases pc with
  | first =>
    simp only [stepFire] at h
    split_ifs at h with hkind hempty
    · cases h; exact .none hkind hempty
    · cases h; exact .first hkind hempty
    · split at h
      · next hcell => cases h; exact .cellNone hkind hcell
      · next v hcell => cases h; exact .cellSome hkind v hcell
  | firstLock flag =>
    simp only [stepFire] at h
    split_ifs at h with hlocked
    split at h
    · next r hpop => cases h; exact .popNone flag r (Bool.eq_false_iff.mpr hlocked) hpop
    · next w r hpop => cases h; exact .popLast flag w r (Bool.eq_false_iff.mpr hlocked) hpop
    · next w last r hpop =>
        cases h; exact .popFirst flag w last r (Bool.eq_false_iff.mpr hlocked) hpop
  | cellCas v =>
    simp only [stepFire] at h
    split_ifs at h with hcell
    · cases h; exact .cellTake v hcell
    · split at h
      · next hnone => cases h; exact .cellGone v hnone
      · next v' hother => cases h; exact .cellOther v v' hother
  | upgrade v =>
    simp only [stepFire] at h
    split_ifs at h with halive
    · cases h; exact .upgrade v halive
    · cases h; exact .dead v (Bool.eq_false_iff.mpr halive)
  | wake w pc rest =>
    cases pc with
    | load => exact fireStep_of_branch (.inl rfl) h
    | store => cases h; exact .store w rest
    | cas =>
      simp only [stepFire, wakeStep] at h
      by_cases hcas : (s.waker w).state = .init ∧ choice = false
      · rw [if_pos hcas] at h
        cases h
        exact .cas w rest hcas.1
      · rw [if_neg hcas] at h
        exact fireStep_of_branch (.inr rfl) h
    | wakeByRef result =>
      cases h
      exact .wakeByRef w result rest _ (wakes_afterWake x w rest result k)
    | returned result => cases h
  | seqCheck w last =>
    simp only [stepFire] at h
    split_ifs at h with hreached
    · cases h; exact .stop w last hreached
    · cases h; exact .goOn w last
  | again last =>
    simp only [stepFire] at h
    split_ifs at h with hempty
    · cases h; exact .againNone last hempty
    · cases h; exact .again last hempty
  | againLock last =>
    simp only [stepFire] at h
    split_ifs at h with hlocked
    split at h
    · next r hpop => cases h; exact .popAgainNone last r (Bool.eq_false_iff.mpr hlocked) hpop
    · next w r hpop => cases h; exact .popAgain last w r (Bool.eq_false_iff.mpr hlocked) hpop

/-- A step of `close`. -/
theorem closeStep_of_stepClose {pc : ClosePc}
    (h : stepClose s choice x pc = some (e, pc')) : CloseStep s x pc e pc' := by
  cases pc with
  | lock =>
    simp only [stepClose] at h
    split_ifs at h with hlocked
    cases h
    exact .lock (Bool.eq_false_iff.mpr hlocked)
  | pop =>
    simp only [stepClose] at h
    split at h
    · next hqueue => cases h; exact .drained hqueue
    · next w rest hqueue =>
        split_ifs at h with halive
        · cases h; exact .pop w rest hqueue halive
        · cases h; exact .dead w rest hqueue (Bool.eq_false_iff.mpr halive)
  | cas w expected =>
    simp only [stepClose] at h
    rcases abandonStep_cases (s.waker w).state expected choice with
      ⟨hstep, hstate⟩ | ⟨hstep, hstate⟩ | ⟨hstep, hstate⟩
    · rw [hstep] at h; cases h; exact .close w expected hstate
    · rw [hstep] at h; cases h; exact .skip w expected hstate
    · rw [hstep] at h; cases h; exact .retry w expected hstate
  | wake w => cases h; exact .wake w
  | store => cases h; exact .store

variable {o : Option Nat}

/-- A send looks for receivers. -/
theorem pcStep_of_sendClosed (h : stepPc cfg s i choice (.sendClosed c o) = some (e, pc')) :
    PcStep cfg s i (.sendClosed c o) e pc' := by
  simp only [stepPc] at h
  split_ifs at h with hgone
  · cases h
    unfold errPc
    split
    · exact .sinkGone _ _ hgone ⟨rfl, rfl⟩
    · exact .sendGone c o hgone
  · split at h
    · cases h; exact .pollOpen _ o hgone rfl rfl
    · cases h; exact .sendOpen c o hgone

/-- The first try. -/
theorem pcStep_of_sendFirst (h : stepPc cfg s i choice (.sendFirst c o) = some (e, pc')) :
    PcStep cfg s i (.sendFirst c o) e pc' := by
  simp only [stepPc] at h
  cases hok : attempt cfg s c with
  | some p =>
    obtain ⟨e', r⟩ := p
    rw [hok] at h
    cases c with
    | pollSend m sink k =>
      cases o with
      | some w => cases h; exact pcStep_of_tries (.sendKeep m sink k w) hok
      | none => cases h; exact pcStep_of_tries (.sendFirst _ none) hok
    | _ => cases h; exact pcStep_of_tries (.sendFirst _ o) hok
  | none =>
    rw [hok] at h
    cases c with
    | pollSend m sink k => cases h; exact .sinkFail _ o rfl
    | send m d => cases h; exact .sendFail _ o rfl
    | _ => cases h; exact .tryFull _ o

theorem pcStep_regPc (hfail : attempt cfg s c = none) :
    PcStep cfg s i (.spin c o) .skip (regPc cfg c o) := by
  cases o with
  | none => exact .spinReg c none hfail (.inl rfl)
  | some w =>
    unfold regPc
    cases hkind : cfg.kind c.side with
    | multi =>
      split_ifs with hblocking
      · exact .spinReset c w hfail hkind hblocking
      · exact .spinRecas c w hfail hkind (Bool.eq_false_iff.mpr hblocking)
    | single | dummy => exact .spinReg c (some w) hfail (.inr (by rw [hkind]; decide))

/-- A call spins. -/
theorem pcStep_of_spin (h : stepPc cfg s i choice (.spin c o) = some (e, pc')) :
    PcStep cfg s i (.spin c o) e pc' := by
  simp only [stepPc] at h
  split at h
  · next e' r hok =>
      cases h
      unfold afterTry
      split
      · exact pcStep_of_tries (.spinCancel _ _) hok
      · exact pcStep_of_tries (.spin c o) hok
  · next hfail =>
      cases h
      unfold afterSpin
      split_ifs
      · exact pcStep_regPc hfail
      · exact .spinAgain c o hfail

/-- The double check. -/
theorem pcStep_of_double (h : stepPc cfg s i choice (.double c w) = some (e, pc')) :
    PcStep cfg s i (.double c w) e pc' := by
  have hfail (hnone : attempt cfg s c = none) :
      PcStep cfg s i (.double c w) .skip (afterDouble cfg c w) := by
    unfold afterDouble
    split_ifs with hkind
    · exact .doubleCommit c w hnone hkind.1
    · refine .doubleSkip c w hnone ?_
      rw [not_and_or, Bool.not_eq_false] at hkind
      exact hkind
  simp only [stepPc] at h
  split at h
  · next hside =>
      split at h
      · next e' r hok => cases h; exact pcStep_of_tries (.doubleRx c w hside) hok
      · next hnone => cases h; exact hfail hnone
  · next hside =>
      split_ifs at h
      · cases h; exact .contended c w hside
      · split at h
        · next e' r hok =>
            cases h
            exact pcStep_of_tries (.doubleTx c w hside) hok
        · next hnone => cases h; exact hfail hnone

/-- A waker is used again. -/
theorem pcStep_of_recas (h : stepRecas cfg s c w = some (e, pc')) :
    PcStep cfg s i (.recas c w) e pc' := by
  simp only [stepRecas] at h
  split at h
  · next hstate => cases h; exact .recas c w _ hstate
  · next hstate =>
      split at h
      · cases h; exact .recasClosed _ w hstate rfl
      · cases h
        unfold errPc
        split
        · next hw => cases hw; exact .recasKeep _ w hstate rfl
        · exact .recasErr _ w hstate rfl
      · cases h
  · next hstate => cases h; exact .recasPanic c w hstate
  · next hwoken hclosed hdone =>
      have hstate : (s.waker w).state.isWoken = false := by
        cases hst : (s.waker w).state with
        | init | waiting => rfl
        | woken => exact absurd hst hwoken
        | closed => exact absurd hst hclosed
        | done => exact absurd hst hdone
      by_cases hsame : willWake cfg (s.waker w).waker c = true
      · rw [if_pos hsame] at h
        cases c with
        | pollItem stream k => cases h; exact .recasSame _ w hstate rfl
        | pollSend m sink k => cases h; exact .recasPending _ w hstate rfl
        | _ => cases h
      · rw [if_neg hsame] at h
        cases h
        exact .recasStale c w

/-- A waker is registered. -/
theorem pcStep_of_reg {fresh : Bool}
    (h : stepReg cfg s c o fresh = some (e, pc')) : PcStep cfg s i (.reg c o fresh) e pc' := by
  simp only [stepReg] at h
  split at h
  · next hkind =>
      split_ifs at h with hlocked
      split at h
      · next w => cases h; exact .reg c w hkind (Bool.eq_false_iff.mpr hlocked)
      · cases h; exact .regNew c o fresh hkind (Bool.eq_false_iff.mpr hlocked)
  · next hkind => cases h; exact .swap c o fresh hkind
  · next hkind => cases h; exact .regDummy c o fresh hkind

/-- A waker is committed. -/
theorem pcStep_of_commit (h : stepPc cfg s i choice (.commit c w) = some (e, pc')) :
    PcStep cfg s i (.commit c w) e pc' := by
  simp only [stepPc] at h
  cases c with
  | pollItem stream k =>
    cases hst : (s.waker w).state with
    | woken =>
      rw [hst] at h
      cases h
      exact .commitWoken _ w hst rfl
    | init | waiting | closed | done =>
      have hcommit : PcStep cfg s i (.commit (.pollItem stream k) w) _ _ := .commit _ w
      rw [hst] at h hcommit
      cases h
      exact hcommit
  | _ => cases h; exact .commit _ w

/-- The check for the other side. -/
theorem pcStep_closedPc (c : Call) (w : Nat) (state : WakerState) :
    PcStep cfg s i (.closed c w state) .skip
      (closedPc cfg c w state (decide (s.cnt c.side.other = 0))) := by
  by_cases hgone : s.cnt c.side.other = 0
  · rw [decide_eq_true hgone]
    cases c with
    | recv d | pollItem stream k => exact .closedLast _ w state hgone rfl
    | send m d | pollSend m sink k => exact .closedGone _ w state hgone nofun
    | tryRecv | trySend m | trySelect final => exact .closedGone _ w state hgone fun _ => rfl
  · rw [decide_eq_false hgone]
    cases c with
    | pollItem stream k => exact .closedKeep _ w state hgone rfl
    | pollSend m sink k =>
      simp only [closedPc, Bool.false_eq_true, if_false]
      split_ifs with hwoken hisWoken
      · subst hwoken
        exact .closedSpin _ w hgone rfl
      · exact .closedErr _ w state hgone rfl
      · exact .closedKeep _ w state hgone rfl
    | recv d | send m d =>
      exact .closedSettle _ w state _ hgone (fun _ => rfl) (settles_settle _ w state)
    | tryRecv | trySend m | trySelect final =>
      exact .closedSettle _ w state _ hgone nofun (settles_settle _ w state)

/-- The last try. -/
theorem pcStep_of_last (h : stepPc cfg s i choice (.last c o) = some (e, pc')) :
    PcStep cfg s i (.last c o) e pc' := by
  simp only [stepPc] at h
  cases hok : attempt cfg s c with
  | some p =>
    obtain ⟨e', r⟩ := p
    rw [hok] at h
    cases h
    unfold afterTry
    split
    · exact pcStep_of_tries (.lastCancel _ _) hok
    · exact pcStep_of_tries (.last c o) hok
  | none =>
    rw [hok] at h
    cases c with
    | pollItem stream k =>
      cases o with
      | some w =>
        cases choice
        · cases h; exact .lastFail _ _ hok
        · cases h; exact .lastKeep _ w hok ⟨rfl, rfl⟩
      | none => cases h; exact .lastFail _ _ hok
    | _ => cases h; exact .lastFail _ o hok

/-- A waker is cancelled, to be used again. -/
theorem pcStep_of_reuse {target : WakerState}
    (h : stepPc cfg s i choice (.reuse c w target) = some (e, pc')) :
    PcStep cfg s i (.reuse c w target) e pc' := by
  simp only [stepPc] at h
  by_cases hkind : cfg.kind c.side = .multi
  · rw [if_pos hkind] at h
    by_cases hwoken : (s.waker w).state.isWoken = true
    · rw [if_pos hwoken] at h
      cases h
      refine .reuseWoken c w target _ hkind hwoken ?_
      split_ifs
      · exact .inl rfl
      · exact .inr rfl
    · rw [if_neg hwoken] at h
      cases h
      exact .reuseClear c w target
  · rw [if_neg hkind] at h
    cases h
    exact .reuse c w target hkind

/-- A waker is abandoned. -/
theorem pcStep_of_abandon {expected : WakerState} {k : Cont}
    (h : stepPc cfg s i choice (.abandon x w expected k) = some (e, pc')) :
    PcStep cfg s i (.abandon x w expected k) e pc' := by
  simp only [stepPc] at h
  rcases abandonStep_cases (s.waker w).state expected choice with
    ⟨hstep, _⟩ | ⟨hstep, _⟩ | ⟨hstep, _⟩
  · rw [hstep] at h
    cases h
    exact .abandonOk x w expected k
  · rw [hstep] at h
    cases h
    split_ifs
    · exact .abandonFire x w expected k _ (fires_firePc x k)
    · exact .abandonErr x w expected k
  · rw [hstep] at h
    cases h
    exact .abandonRetry x w expected _ k

/-- Every step of an agent is one of the listed ones. -/
theorem pcStep_of_stepPc {pc : Pc} (h : stepPc cfg s i choice pc = some (e, pc')) :
    PcStep cfg s i pc e pc' := by
  cases pc with
  -- one lemma for each program counter with several branches
  | sendClosed c o => exact pcStep_of_sendClosed h
  | sendFirst c o => exact pcStep_of_sendFirst h
  | start c =>
    simp only [stepPc] at h
    split at h
    · next e' r hok => cases h; exact pcStep_of_tries (.start c) hok
    · cases h; exact .startFail c
  | spin c o => exact pcStep_of_spin h
  | reset c w => cases h; exact .reset c w
  | recas c w => exact pcStep_of_recas h
  | stale c w =>
    simp only [stepPc] at h
    split_ifs at h
    · cases h; exact .staleWoken c w
    · cases h; exact .stale c w
  | reg c o fresh => exact pcStep_of_reg h
  | double c w => exact pcStep_of_double h
  | commit c w => exact pcStep_of_commit h
  | closed c w state => cases h; exact pcStep_closedPc c w state
  | congest c w =>
    simp only [stepPc] at h
    split_ifs at h
    · cases h; exact .congestNot c w _ (sleeps_parkPc c w)
    · cases h; exact .congest c w
  | snooze c w =>
    simp only [stepPc] at h
    split_ifs at h with hstate
    · cases h; exact .snoozeWoken c w _ hstate (settles_settle c w _)
    · cases h; exact .snoozeDone c w _ (sleeps_parkPc c w)
    · cases h; exact .snooze c w
  | deadline c w =>
    cases choice
    · cases h; exact .deadline c w
    · cases h
      simp only [if_true]
      unfold abandonPc
      split_ifs with hkind
      · exact .timeout c w hkind
      · exact .timeoutSingle c w hkind
  | park c w =>
    simp only [stepPc] at h
    split_ifs at h
    cases h
    exact .park c w
  | state c w => cases h; exact .state c w _ (settles_settle c w _)
  | last c o => exact pcStep_of_last h
  | cancel c w r =>
    simp only [stepPc] at h
    split_ifs at h
    · cases h; exact .cancel c w r
    · cases h; exact .cancelled c w r
  | reuse c w target => exact pcStep_of_reuse h
  | clear x w oneshot k =>
    simp only [stepPc] at h
    split_ifs at h
    · cases h; exact .clear x w oneshot k
    · cases h; exact .clearSkip x w oneshot k
  | clearLock x w oneshot k =>
    simp only [stepPc] at h
    split_ifs at h with hlocked
    cases h
    exact .clearLock x w oneshot k (Bool.eq_false_iff.mpr hlocked)
  | abandon x w expected k => exact pcStep_of_abandon h
  | fire x pc k => exact .fire x pc k pc' e (fireStep_of_stepFire h)
  | retn c o r => cases h; exact .retn c o r
  | keep c w r =>
    simp only [stepPc] at h
    split_ifs at h with hr
    · cases h; subst hr; exact .keepPending c w
    · cases h; exact .keep c w r hr
  | tryClosed =>
    simp only [stepPc] at h
    split_ifs at h with hgone
    · cases h; exact .tryLast hgone
    · cases h; exact .tryClosed
  | tryOpen =>
    simp only [stepPc] at h
    split at h
    · next e' r hok => cases h; exact pcStep_of_tries .tryOpen hok
    · cases h; exact .openFail
  | selectClosed => cases h; exact .selectClosed
  | selectPop final closed =>
    simp only [stepPc] at h
    split at h
    · next m rest hqueue =>
        split_ifs at h
        · cases h; exact .selectClaim final closed m rest hqueue
        · cases h; exact .selectPeek final closed
    · next hqueue => cases h; exact .selectNone final closed hqueue
  | readToken =>
    simp only [stepPc] at h
    split at h
    · next e' r hok => cases h; exact pcStep_of_tries .readToken hok
    · cases h
  | close x pc => exact .close x pc pc' e (closeStep_of_stepClose h)
  | idle | pending _ _ | kept _ _ | held _ | panicked => cases h

/-! ## The actions of the system -/

/-- Another poll goes on at `pc'` with its waker. -/
inductive Repolls (w : Nat) : Call → Call → Pc → Prop
  | item (stream stream' : Bool) (k k' : Nat) :
      Repolls w (.pollItem stream k) (.pollItem stream' k') (.spin (.pollItem stream' k') (some w))
  | send (m k k' : Nat) :
      Repolls w (.pollSend m false k) (.pollSend m false k')
        (.sendClosed (.pollSend m false k') (some w))
  | sink (m m' k k' : Nat) :
      Repolls w (.pollSend m true k) (.pollSend m' true k')
        (.sendFirst (.pollSend m' true k') (some w))

/-- A future is polled again. -/
theorem repolls_of_repollPc {c c' : Call} {w nextMsg : Nat} {pending : Bool}
    (h : repollPc c c' w nextMsg pending = some pc') : Repolls w c c' pc' := by
  unfold repollPc at h
  split at h
  · cases h; exact .item _ _ _ _
  · next m k m' k' =>
      split_ifs at h with hm
      cases h
      rw [hm.1]
      exact .send m k k'
  · split_ifs at h
    cases h
    exact .sink _ _ _ _
  · cases h

variable (cfg) in
/-- Where the close of the registry of side `x` starts. -/
inductive Closes (x : Side) : Pc → Prop
  | multi (kind : cfg.kind x = .multi) : Closes x (.close x .lock)
  | single (kind : cfg.kind x ≠ .multi) : Closes x (.fire x .first .idle)
  | dummy (kind : cfg.kind x = .dummy) : Closes x .idle

variable [DecidableEq ι]

variable (cfg) in
/-- The actions that start or end something. -/
inductive CallStep (s : St ι) : Act ι → St ι → Prop
  | call (i : ι) (c : Call) (pc : s.pc i = .idle) (handle : s.handle i = some c.side)
      (msg : c.msg = none ∨ c.msg = some s.nextMsg) :
      CallStep s (.call i c) ((s.countMsg c).setPc i (startPc c))
  | poll (i : ι) (c c' : Call) (w : Nat) (pc' : Pc)
      (pc : s.pc i = .pending c w ∨ s.pc i = .kept c w) (next : Repolls w c c' pc') :
      CallStep s (.poll i c') ((s.countMsg c').setPc i pc')
  | dropFuture (i : ι) (c : Call) (w : Nat) (pc : s.pc i = .pending c w ∨ s.pc i = .kept c w)
      (kind : cfg.kind c.side = .multi) :
      CallStep s (.dropFuture i)
        (s.setPc i (.abandon c.side w .waiting (.retn c (some w) .timeout)))
  | dropSingle (i : ι) (c : Call) (w : Nat) (pc : s.pc i = .pending c w ∨ s.pc i = .kept c w)
      (kind : cfg.kind c.side ≠ .multi) :
      CallStep s (.dropFuture i) (s.setPc i (.retn c (some w) .timeout))
  | dropHandle (i : ι) (x : Side) (pc : s.pc i = .idle) (handle : s.handle i = some x)
      (shared : 1 < s.cnt x) : CallStep s (.dropHandle i) (s.dropHandle x i)
  | dropLast (i : ι) (x : Side) (pc' : Pc) (pc : s.pc i = .idle) (handle : s.handle i = some x)
      (alone : s.cnt x ≤ 1) (goes : Closes cfg x.other pc') :
      CallStep s (.dropHandle i) ((s.dropHandle x i).setPc i pc')
  | clone (i j : ι) (x : Side) (source : s.handle i = some x) (slot : s.handle j = none)
      (kind : cfg.kind x ≠ .single) : CallStep s (.clone i j) (s.addHandle x j)
  | readTaken (i : ι) (m : Nat) (pc' : Pc) (pc : s.pc i = .held (some m))
      (goes : Fires cfg .tx (.retn (.trySelect false) none (.ok m)) pc') :
      CallStep s (.readSelect i) (s.setPc i pc')
  | readToken (i : ι) (pc : s.pc i = .held none) : CallStep s (.readSelect i) (s.setPc i .readToken)
  | dropToken (i : ι) (m : Option Nat) (pc : s.pc i = .held m) :
      CallStep s (.dropToken i) (s.setPc i .idle)
  | regSelect (channelId selector : Nat) (kind : cfg.kind .rx = .multi)
      (unlocked : s.locked .rx = false) :
      CallStep s (.regSelect channelId selector)
        (s.setReg .rx ((s.reg .rx).regSelectWaker channelId selector))
  | cancelSelect (selector : Nat) (kind : cfg.kind .rx = .multi)
      (unlocked : s.locked .rx = false) :
      CallStep s (.cancelSelect selector) (s.setReg .rx ((s.reg .rx).cancelSelectWaker selector))

omit [Fintype ι] in
theorem callStep_abandonPc (hpc : s.pc i = .pending c w ∨ s.pc i = .kept c w) :
    CallStep cfg s (.dropFuture i) (s.setPc i (abandonPc cfg c w)) := by
  unfold abandonPc
  split_ifs with hkind
  · exact .dropFuture i c w hpc hkind
  · exact .dropSingle i c w hpc hkind

omit [Fintype ι] in
/-- The last handle of a side closes the channel. -/
theorem callStep_closeHandle (hpc : s.pc i = .idle) (hhandle : s.handle i = some x) :
    CallStep cfg s (.dropHandle i) (closeHandle cfg s x i) := by
  unfold closeHandle firePc
  split_ifs with halone hkind hdummy
  · exact .dropLast i x _ hpc hhandle halone (.multi hkind)
  · exact .dropLast i x _ hpc hhandle halone (.dummy hdummy)
  · exact .dropLast i x _ hpc hhandle halone (.single hkind)
  · exact .dropHandle i x hpc hhandle (Nat.lt_of_not_le halone)

/-- Every action is a step of an agent or the start or end of a call. -/
theorem step_cases {t : St ι} {a : Act ι} (h : step cfg s a = some t) :
    (∃ i choice e pc', a = .go i choice ∧ PcStep cfg s i (s.pc i) e pc' ∧
      t = (s.apply i e).setPc i pc') ∨ CallStep cfg s a t := by
  cases a with
  | call i c =>
    simp only [step] at h
    split_ifs at h with hcall
    cases h
    exact .inr (.call i c hcall.1 hcall.2.1 hcall.2.2)
  | poll i c' =>
    simp only [step] at h
    split at h
    · next c w pc =>
        obtain ⟨pc', hnext, rfl⟩ := Option.map_eq_some_iff.mp h
        exact .inr (.poll i c c' w pc' (.inl pc) (repolls_of_repollPc hnext))
    · next c w pc =>
        obtain ⟨pc', hnext, rfl⟩ := Option.map_eq_some_iff.mp h
        exact .inr (.poll i c c' w pc' (.inr pc) (repolls_of_repollPc hnext))
    · cases h
  | go i choice =>
    simp only [step] at h
    obtain ⟨⟨e, pc'⟩, hstep, rfl⟩ := Option.map_eq_some_iff.mp h
    exact .inl ⟨i, choice, e, pc', rfl, pcStep_of_stepPc hstep, rfl⟩
  | dropFuture i =>
    simp only [step] at h
    split at h
    · next c w pc => cases h; exact .inr (callStep_abandonPc (.inl pc))
    · next c w pc => cases h; exact .inr (callStep_abandonPc (.inr pc))
    · cases h
  | dropHandle i =>
    simp only [step] at h
    split at h
    · next x pc handle => cases h; exact .inr (callStep_closeHandle pc handle)
    · cases h
  | clone i j =>
    simp only [step] at h
    split at h
    · next x source slot =>
        split_ifs at h with kind
        cases h
        exact .inr (.clone i j x source slot kind)
    · cases h
  | readSelect i =>
    simp only [step] at h
    split at h
    · next m pc => cases h; exact .inr (.readTaken i m _ pc (fires_firePc _ _))
    · next pc => cases h; exact .inr (.readToken i pc)
    · cases h
  | dropToken i =>
    simp only [step] at h
    split at h
    · next m pc => cases h; exact .inr (.dropToken i m pc)
    · cases h
  | regSelect channelId selector =>
    simp only [step] at h
    split_ifs at h with hcond
    cases h
    exact .inr (.regSelect channelId selector hcond.1 hcond.2)
  | cancelSelect selector =>
    simp only [step] at h
    split_ifs at h with hcond
    cases h
    exact .inr (.cancelSelect selector hcond.1 hcond.2)

end Steps

end Crossfire.Channel
