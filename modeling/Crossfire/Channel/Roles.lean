import Crossfire.Channel.Steps

/-!
# What an agent has to do with a waker

A program counter says more than the invariants of the wakers need. This file reads off its roles:
the side of the call it is in (`Pc.side`), the wakers that belong to it (`Pc.mine`), the registered
waker it relies on (`Pc.own`), the waker it is about to register again (`Pc.ready`), the waker it
has taken out of a registry and not yet woken (`Pc.pops`), and the waker it has yet to call
`wake_by_ref` on (`Pc.rings`).

`Move` has one constructor for each thing a step can do to wakers and registries, and
`move_of_pcStep` maps the steps of the code to them. A program counter `Fits` when its call is one
that gets there.
-/

set_option autoImplicit false

namespace Crossfire.Channel

open Lib.Interleaving Crossfire.Waker Crossfire.Registry

/-! ## Roles -/

/-- The call that goes on. -/
def Cont.call : Cont → Option Call
  | .retn c _ _ | .keep c _ _ | .cancel c _ _ | .reuse c _ _ | .reg c _ | .spin c _ => some c
  | .idle => none

/-- The call an agent is in. -/
def Pc.call : Pc → Option Call
  | .pending c _ | .kept c _ | .sendClosed c _ | .sendFirst c _ | .start c | .spin c _ | .reset c _
  | .recas c _ | .stale c _ | .reg c _ _ | .double c _ | .commit c _ | .closed c _ _ | .congest c _
  | .snooze c _ | .deadline c _ | .park c _ | .state c _ | .last c _ | .cancel c _ _ | .reuse c _ _
  | .retn c _ _ | .keep c _ _ => some c
  | .clear _ _ _ k | .clearLock _ _ _ k | .abandon _ _ _ k | .fire _ _ k => k.call
  | .tryClosed | .tryOpen => some .tryRecv
  | .selectClosed => some (.trySelect true)
  | .selectPop final _ => some (.trySelect final)
  | .held _ | .readToken => some (.trySelect false)
  | .idle | .close _ _ | .panicked => none

/-- The side of the call. -/
def Pc.side (pc : Pc) : Option Side := pc.call.map Call.side

/-- The wakers an agent created and still has. -/
def Pc.mine : Pc → List Nat
  | .pending _ w | .kept _ w | .reset _ w | .recas _ w | .stale _ w | .double _ w | .commit _ w
  | .closed _ w _ | .congest _ w | .snooze _ w | .deadline _ w | .park _ w | .state _ w
  | .cancel _ w _ | .reuse _ w _ | .keep _ w _ => [w]
  | .sendClosed _ o | .sendFirst _ o | .spin _ o | .reg _ o _ | .last _ o | .retn _ o _ => o.toList
  | .clear _ w _ k | .clearLock _ w _ k | .abandon _ w _ k => w :: k.strong
  | .fire _ _ k => k.strong
  | .idle | .held _ | .start _ | .tryClosed | .tryOpen | .selectClosed | .selectPop _ _
  | .readToken | .close _ _ | .panicked => []

/-- The waker that the call relies on. -/
def Cont.own : Cont → Option Nat
  | .keep _ w _ | .reuse _ w _ => some w
  | .spin _ o => o
  | .idle | .retn _ _ _ | .cancel _ _ _ | .reg _ _ => none

/-- The waker an agent has registered and relies on. -/
def Pc.own : Pc → Option Nat
  | .pending _ w | .kept _ w | .reset _ w | .recas _ w | .stale _ w | .double _ w | .commit _ w
  | .closed _ w _ | .congest _ w | .snooze _ w | .deadline _ w | .park _ w | .state _ w
  | .reuse _ w _ | .keep _ w _ => some w
  | .sendClosed _ o | .sendFirst _ o | .spin _ o | .last _ o => o
  | .fire _ _ k => k.own
  | .idle | .held _ | .start _ | .reg _ _ _ | .cancel _ _ _ | .clear _ _ _ _ | .clearLock _ _ _ _
  | .abandon _ _ _ _ | .retn _ _ _ | .tryClosed | .tryOpen | .selectClosed | .selectPop _ _
  | .readToken | .close _ _ | .panicked => none

/-- The woken waker an agent is about to register again. -/
def Pc.ready : Pc → Option Nat
  | .reg _ (some w) false => some w
  | _ => none

/-- The waker that `fire` has taken out and not woken. -/
def FirePc.pops : FirePc → Option Nat
  | .upgrade w | .wake w .load _ | .wake w .store _ | .wake w .cas _ => some w
  | _ => none

/-- The waker that `close` has taken out and not woken. -/
def ClosePc.pops : ClosePc → Option Nat
  | .cas w _ => some w
  | _ => none

/-- The waker an agent has taken out of the registry of a side and not yet woken. -/
def Pc.pops : Pc → Option (Side × Nat)
  | .fire x pc _ => pc.pops.map (x, ·)
  | .close x pc => pc.pops.map (x, ·)
  | _ => none

/-- The waker whose `wake_by_ref` is the next step of `fire`. -/
def FirePc.rings : FirePc → Option Nat
  | .wake w (.wakeByRef _) _ => some w
  | _ => none

/-- The waker whose `wake_by_ref` is the next step of `close`. -/
def ClosePc.rings : ClosePc → Option Nat
  | .wake w => some w
  | _ => none

/-- The waker whose state an agent has changed and that it has yet to call. -/
def Pc.rings : Pc → Option Nat
  | .fire _ pc _ => pc.rings
  | .close _ pc => pc.rings
  | _ => none

/-- The registry an agent is closing. -/
def Pc.closes : Pc → Option Side
  | .close x _ => some x
  | _ => none

/-- The continuation belongs to a call that gets there. -/
def Cont.Fits : Cont → Prop
  | .idle | .retn _ _ _ | .cancel _ _ _ => True
  | .keep c _ _ => c.registers = true ∧ c.isBlocking = false
  | .reuse c _ target => c.registers = true ∧ c.side = .tx ∧ target.isWoken = true
  | .reg c _ => c.registers = true
  | .spin c o => c.registers = true ∧ o = none

/-- The call of a program counter is one that gets there. -/
def Pc.Fits : Pc → Prop
  | .pending c _ | .kept c _ | .keep c _ _ | .recas c _ | .stale c _ =>
    c.registers = true ∧ c.isBlocking = false
  | .sendClosed c o | .sendFirst c o => c.side = .tx ∧ (c.isBlocking = true → o = none)
  | .start c => c.isBlocking = true ∧ c.side = .rx
  | .spin c _ | .reg c _ _ | .double c _ | .commit c _ | .closed c _ _ => c.registers = true
  | .reset c _ | .congest c _ | .snooze c _ | .deadline c _ | .park c _ | .state c _ =>
    c.isBlocking = true
  | .last c _ => c.side = .rx
  | .reuse c _ target => c.registers = true ∧ c.side = .tx ∧ target.isWoken = true
  | .clear _ _ _ k | .clearLock _ _ _ k | .abandon _ _ _ k => k.Fits ∧ k.own = none
  | .fire _ _ k => k.Fits
  | .idle | .held _ | .cancel _ _ _ | .retn _ _ _ | .tryClosed | .tryOpen | .selectClosed
  | .selectPop _ _ | .readToken | .close _ _ | .panicked => True

theorem Call.registers_of_isBlocking {c : Call} (h : c.isBlocking = true) : c.registers = true := by
  cases c <;> first | rfl | cases h

section Continuations

variable (k : Cont)

/-- What follows belongs to the same side. -/
@[simp] theorem Cont.side_pc : k.pc.side = k.call.map Call.side := by cases k <;> rfl
@[simp] theorem Cont.mine_pc : k.pc.mine = k.strong := by cases k <;> rfl
@[simp] theorem Cont.own_pc : k.pc.own = k.own := by cases k <;> rfl
@[simp] theorem Cont.ready_pc : k.pc.ready = none := by cases k <;> rfl
@[simp] theorem Cont.pops_pc : k.pc.pops = none := by cases k <;> rfl
@[simp] theorem Cont.rings_pc : k.pc.rings = none := by cases k <;> rfl
@[simp] theorem Cont.closes_pc : k.pc.closes = none := by cases k <;> rfl

end Continuations

theorem Cont.Fits.pc {k : Cont} (h : k.Fits) : k.pc.Fits := by
  cases k with
  | spin c o => exact h.1
  | _ => exact h

/-- Every waker of an agent is one it keeps alive. -/
theorem Pc.mine_subset_strong (pc : Pc) : pc.mine ⊆ pc.strong := by
  cases pc with
  | fire x pc k => exact List.subset_append_right _ _
  | close x pc => exact List.nil_subset _
  | _ => exact List.Subset.refl _

theorem Cont.own_mem_strong {k : Cont} {w : Nat} (h : k.own = some w) : w ∈ k.strong := by
  cases k with
  | keep | reuse | spin => cases h; exact List.mem_singleton_self _
  | _ => cases h

theorem Pc.own_mem_mine {pc : Pc} {w : Nat} (h : pc.own = some w) : w ∈ pc.mine := by
  cases pc with
  | fire x pc k => exact Cont.own_mem_strong h
  | sendClosed c o | sendFirst c o | spin c o | last c o => cases h; exact List.mem_singleton_self _
  | _ => first | (cases h; exact List.mem_singleton_self _) | cases h

theorem Pc.ready_mem_mine {pc : Pc} {w : Nat} (h : pc.ready = some w) : w ∈ pc.mine := by
  unfold Pc.ready at h
  split at h
  · cases h; exact List.mem_singleton_self _
  · cases h

/-! ## Steps that do nothing to wakers -/

/-- The agent keeps what it has or gives some of it up. -/
structure Flows (pc pc' : Pc) : Prop where
  side : pc'.side = none ∨ pc'.side = pc.side
  mine : pc'.mine ⊆ pc.mine
  own : pc'.own = none ∨ pc'.own = pc.own

/-- A step with none of the effects below: wakers and registries stay as they are. -/
structure Still (pc pc' : Pc) : Prop extends Flows pc pc' where
  ready : pc'.ready = none
  pops : pc'.pops = pc.pops
  rings : pc'.rings = pc.rings

section Moves

variable {ι : Type}

/-- The effects that leave the wakers and the queues of the registries as they are. -/
def Eff.Inert (s : St ι) : Eff → Prop
  | .skip | .pop | .push _ | .lock _ | .unlock _ | .park | .ret _ _ => True
  | .setState w state => state = (s.waker w).state
  | .reg _ _ | .regNew _ _ | .swap _ _ | .registry _ _ | .cell _ _ | .wakeByRef _ => False

variable [Fintype ι]

/-- What a step from `pc` can do to wakers and registries. -/
inductive Move (cfg : Cfg) (s : St ι) (pc : Pc) : Eff → Pc → Prop
  | still (e : Eff) (pc' : Pc) (inert : e.Inert s) (still : Still pc pc') : Move cfg s pc e pc'
  /-- A waker taken out of the registry needs no wake. -/
  | giveUp (e : Eff) (pc' : Pc) (x : Side) (w : Nat) (inert : e.Inert s) (flows : Flows pc pc')
      (ready : pc'.ready = none) (pops : pc.pops = some (x, w)) (pops' : pc'.pops = none)
      (rings : pc'.rings = pc.rings)
      (lost : (s.waker w).state.isWoken = true ∨ s.alive w = false) : Move cfg s pc e pc'
  | take (x : Side) (w : Nat) (r : RegistryMulti) (pc' : Pc) (dead : List Nat)
      (flows : Flows pc pc') (ready : pc'.ready = none) (pops : pc.pops = none)
      (pops' : pc'.pops = some (x, w)) (rings : pc'.rings = pc.rings)
      (queue : (s.reg x).queue = dead ++ w :: r.queue) (hdead : ∀ v ∈ dead, s.alive v = false)
      (seq : r.seq = (s.reg x).seq) : Move cfg s pc (.registry x r) pc'
  | takeCell (x : Side) (w : Nat) (pc' : Pc) (flows : Flows pc pc') (ready : pc'.ready = none)
      (pops : pc.pops = none) (pops' : pc'.pops = some (x, w)) (rings : pc'.rings = pc.rings)
      (cell : s.cell x = some w) : Move cfg s pc (.cell x none) pc'
  /-- Only wakers that are gone are dropped from the queue. -/
  | drain (x : Side) (r : RegistryMulti) (pc' : Pc) (dead : List Nat) (still : Still pc pc')
      (queue : (s.reg x).queue = dead ++ r.queue) (hdead : ∀ v ∈ dead, s.alive v = false)
      (seq : r.seq = (s.reg x).seq) : Move cfg s pc (.registry x r) pc'
  | clear (x : Side) (w : Nat) (oneshot : Bool) (k : Cont) (hpc : pc = .clearLock x w oneshot k)
      (still : Still pc k.pc) :
      Move cfg s pc (.registry x ((s.reg x).clearWakers s.alive s.seq (fun v => (s.waker v).state)
        (s.seq w) oneshot)) k.pc
  | wake (x : Side) (w : Nat) (state : WakerState) (pc' : Pc) (flows : Flows pc pc')
      (ready : pc'.ready = none) (pops : pc.pops = some (x, w)) (pops' : pc'.pops = none)
      (rings : pc.rings = none) (rings' : pc'.rings = some w)
      (woken : state = .woken ∨ state = .closed ∧ pc.closes = some x) :
      Move cfg s pc (.setState w state) pc'
  | ring (w : Nat) (pc' : Pc) (flows : Flows pc pc') (ready : pc'.ready = none)
      (pops : pc'.pops = pc.pops) (rings : pc.rings = some w) (rings' : pc'.rings = none) :
      Move cfg s pc (.wakeByRef w) pc'
  | reset (w : Nat) (pc' : Pc) (flows : Flows pc pc') (own : pc.own = some w)
      (own' : pc'.own = none) (ready : pc'.ready = none ∨ pc'.ready = some w)
      (pops : pc'.pops = pc.pops) (rings : pc'.rings = pc.rings)
      (woken : (∃ c, pc = .reset c w) ∨ (s.waker w).state = .woken) :
      Move cfg s pc (.setState w .init) pc'
  | commit (w : Nat) (pc' : Pc) (still : Still pc pc') (own : pc.own = some w) :
      Move cfg s pc (.setState w (commitWaiting (s.waker w).state).1) pc'
  | abandon (w : Nat) (pc' : Pc) (still : Still pc pc') (mine : w ∈ pc.mine)
      (own' : pc'.own = none) : Move cfg s pc (.setState w .closed) pc'
  | register (c : Call) (w : Nat) (hpc : pc = .reg c (some w) false)
      (kind : cfg.kind c.side = .multi) (unlocked : s.locked c.side = false) :
      Move cfg s pc (.reg c.side w) (.double c w)
  | regNew (c : Call) (o : Option Nat) (fresh : Bool) (hpc : pc = .reg c o fresh)
      (kind : cfg.kind c.side = .multi) (unlocked : s.locked c.side = false) :
      Move cfg s pc (.regNew c.side c.thin) (.double c s.nextWaker)
  | swap (c : Call) (o : Option Nat) (fresh : Bool) (hpc : pc = .reg c o fresh)
      (kind : cfg.kind c.side = .single) :
      Move cfg s pc (.swap c.side c.thin) (.double c s.nextWaker)

/-! ## Every step is a move -/

variable {cfg : Cfg} {s : St ι} {i : ι} {e : Eff} {pc pc' : Pc} {x : Side} {c : Call} {k : Cont}
  {w : Nat}

theorem Cont.still (hside : k.call.map Call.side = pc.side) (hmine : k.strong ⊆ pc.mine)
    (hown : k.own = none ∨ k.own = pc.own) (hpops : pc.pops = none) (hrings : pc.rings = none) :
    Still pc k.pc :=
  ⟨⟨.inr (by rw [Cont.side_pc, hside]), by rwa [Cont.mine_pc], by rwa [Cont.own_pc]⟩,
    Cont.ready_pc k, by rw [Cont.pops_pc, hpops], by rw [Cont.rings_pc, hrings]⟩

/-- The notification takes nothing over. -/
theorem Fires.still (h : Fires cfg x k pc') (hside : k.call.map Call.side = pc.side)
    (hmine : k.strong ⊆ pc.mine) (hown : k.own = none ∨ k.own = pc.own) (hpops : pc.pops = none)
    (hrings : pc.rings = none) : Still pc pc' := by
  cases h with
  | dummy kind => exact Cont.still hside hmine hown hpops hrings
  | fire kind => exact ⟨⟨.inr hside, hmine, hown⟩, rfl, hpops.symm, hrings.symm⟩

/-- What follows a successful try keeps no more than the try had. -/
theorem Tries.still {k : Ret → Cont} {r : Ret} (h : Tries pc c k) (hto : Fires cfg x (k r) pc') :
    Still pc pc' := by
  cases h with
  | sendKeep | doubleTx => exact hto.still rfl (List.Subset.refl _) (.inr rfl) rfl rfl
  | sendFirst c o | start c | spin c o | spinCancel c v | last c o | lastCancel c v
  | doubleRx c v side | tryOpen | readToken =>
    exact hto.still rfl (List.Subset.refl _) (.inl rfl) rfl rfl

/-- The sleep takes nothing over. -/
theorem Sleeps.still (h : Sleeps c w pc') (hside : pc.side = some c.side) (hmine : pc.mine = [w])
    (hown : pc.own = some w) (hpops : pc.pops = none) (hrings : pc.rings = none) :
    Still pc pc' := by
  have hsub : [w] ⊆ pc.mine := by rw [hmine]; exact List.Subset.refl _
  cases h with
  | congest | deadline | park =>
    exact ⟨⟨.inr hside.symm, hsub, .inr hown.symm⟩, rfl, hpops.symm, hrings.symm⟩

/-- A call that settles keeps its waker. -/
theorem Settles.still {state : WakerState} (h : Settles c w state pc')
    (hside : pc.side = some c.side) (hmine : pc.mine = [w]) (hown : pc.own = some w)
    (hpops : pc.pops = none) (hrings : pc.rings = none) : Still pc pc' := by
  have hsub : [w] ⊆ pc.mine := by rw [hmine]; exact List.Subset.refl _
  cases h with
  | spin woken notClosed | last closed side =>
    exact ⟨⟨.inr hside.symm, hsub, .inr hown.symm⟩, rfl, hpops.symm, hrings.symm⟩
  | err woken side =>
    exact ⟨⟨.inr hside.symm, hsub, .inl rfl⟩, rfl, hpops.symm, hrings.symm⟩
  | sleep _ notWoken goes => exact goes.still hside hmine hown hpops hrings

theorem flows_fire (x : Side) (f f' : FirePc) (k : Cont) : Flows (.fire x f k) (.fire x f' k) :=
  ⟨.inr rfl, List.Subset.refl _, .inr rfl⟩

theorem still_leave (x : Side) {f : FirePc} (k : Cont) (hpops : f.pops = none)
    (hrings : f.rings = none) : Still (.fire x f k) k.pc :=
  Cont.still rfl (List.Subset.refl _) (.inr rfl) (by rw [Pc.pops, hpops]; rfl) hrings

theorem flows_leave (x : Side) (f : FirePc) (k : Cont) : Flows (.fire x f k) k.pc :=
  ⟨.inr (Cont.side_pc k), by rw [Cont.mine_pc]; exact List.Subset.refl _, .inr (Cont.own_pc k)⟩

/-- After `wake` the agent holds no waker it has yet to wake. -/
theorem Wakes.flows {rest : Rest} {result : WakeResult} (h : Wakes x w k rest result pc')
    (f : FirePc) : Flows (.fire x f k) pc' ∧ pc'.ready = none ∧ pc'.pops = none ∧
      pc'.rings = none := by
  cases h with
  | leave _ _ done =>
    exact ⟨flows_leave x f k, Cont.ready_pc k, Cont.pops_pc k, Cont.rings_pc k⟩
  | again | seqCheck => exact ⟨flows_fire x f _ k, rfl, rfl, rfl⟩

/-- A step of `fire`. -/
theorem move_of_fireStep {f : FirePc} (h : FireStep cfg s x k f e pc') :
    Move cfg s (.fire x f k) e pc' := by
  cases h with
  | none | cellNone | cellGone | stop | againNone =>
    exact .still _ _ trivial (still_leave x k rfl rfl)
  | first | cellSome | cellOther | goOn | again | upgrade =>
    exact .still _ _ trivial ⟨flows_fire x _ _ k, rfl, rfl, rfl⟩
  | popNone flag r unlocked pop =>
    obtain ⟨⟨dead, hqueue, hdead⟩, hseq, _⟩ := RegistryMulti.popFirst_none pop
    exact .drain x r _ dead (still_leave x k rfl rfl) hqueue hdead hseq
  | popAgainNone last r unlocked pop =>
    obtain ⟨hnil, hdead, hseq⟩ := RegistryMulti.popAgain_none pop
    refine .drain x r _ (s.reg x).queue (still_leave x k rfl rfl) ?_ hdead hseq
    rw [hnil, List.append_nil]
  | popLast flag w r unlocked pop | popFirst flag w last r unlocked pop =>
    obtain ⟨⟨dead, hqueue, hdead⟩, hseq, _⟩ := RegistryMulti.popFirst_some pop
    exact .take x w r _ dead (flows_fire x _ _ k) rfl rfl rfl rfl hqueue hdead hseq
  | popAgain last w r unlocked pop =>
    obtain ⟨⟨dead, hqueue, hdead⟩, hseq⟩ := RegistryMulti.popAgain_some pop
    exact .take x w r _ dead (flows_fire x _ _ k) rfl rfl rfl rfl hqueue hdead hseq
  | cellTake v cell => exact .takeCell x v _ (flows_fire x _ _ k) rfl rfl rfl rfl cell
  | dead v hdead =>
    exact .giveUp _ _ x v trivial (flows_leave x _ k) (Cont.ready_pc k) rfl (Cont.pops_pc k)
      (Cont.rings_pc k) (.inr hdead)
  | skip w pc rest pc' hpc woken goes =>
    obtain ⟨hflows, hready, hpops, hrings⟩ := goes.flows (.wake w pc rest)
    rcases hpc with rfl | rfl
    · exact .giveUp _ _ x w rfl hflows hready rfl hpops hrings (.inl woken)
    · exact .giveUp _ _ x w rfl hflows hready rfl hpops hrings (.inl woken)
  | toStore w pc rest hpc state | toCas w pc rest hpc state =>
    rcases hpc with rfl | rfl
    · exact .still _ _ rfl ⟨flows_fire x _ _ k, rfl, rfl, rfl⟩
    · exact .still _ _ rfl ⟨flows_fire x _ _ k, rfl, rfl, rfl⟩
  | store w | cas w => exact .wake x w .woken _ (flows_fire x _ _ k) rfl rfl rfl rfl rfl (.inl rfl)
  | wakeByRef w result rest pc' goes =>
    obtain ⟨hflows, hready, hpops, hrings⟩ := goes.flows (.wake w (.wakeByRef result) rest)
    exact .ring w _ hflows hready hpops rfl hrings

/-- A step of `close`. -/
theorem move_of_closeStep {f : ClosePc} (h : CloseStep s x f e pc') :
    Move cfg s (.close x f) e pc' := by
  have hflows (f' : ClosePc) : Flows (.close x f) (.close x f') :=
    ⟨.inr rfl, List.Subset.refl _, .inr rfl⟩
  cases h with
  | lock | drained => exact .still _ _ trivial ⟨hflows _, rfl, rfl, rfl⟩
  | pop w rest queue alive =>
    refine .take x w _ _ [] (hflows _) rfl rfl rfl rfl ?_ nofun rfl
    rw [queue]
    simp [RegistryMulti.closePop, queue]
  | dead w rest queue dead =>
    refine .drain x _ _ [w] ⟨hflows _, rfl, rfl, rfl⟩ ?_ (by simpa using dead) rfl
    rw [queue]
    simp [RegistryMulti.closePop, queue]
  | close w expected state =>
    exact .wake x w .closed _ (hflows _) rfl rfl rfl rfl rfl (.inr ⟨rfl, rfl⟩)
  | skip w expected woken => exact .giveUp _ _ x w rfl (hflows _) rfl rfl rfl rfl (.inl woken)
  | retry w expected state => exact .still _ _ rfl ⟨hflows _, rfl, rfl, rfl⟩
  | wake w => exact .ring w _ (hflows _) rfl rfl rfl rfl
  | store => exact .still _ _ trivial ⟨⟨.inl rfl, List.Subset.refl _, .inl rfl⟩, rfl, rfl, rfl⟩

/-- **Every step of an agent is a move.** -/
theorem move_of_pcStep (h : PcStep cfg s i pc e pc') (hfits : pc.Fits) : Move cfg s pc e pc' := by
  cases h with
  | recv _ _ _ _ _ _ tries _ _ goes | send _ _ _ _ _ tries _ _ _ goes =>
    exact .still _ _ trivial (tries.still goes)
  -- the agent goes on with what it has
  | sinkGone | sendOpen | pollOpen | sinkFail | sendFail | startFail | spinAgain | spinReset
  | spinRecas | doubleCommit | doubleSkip | contended | lastKeep | recasClosed | recasKeep
  | recasSame | recasPending | recasStale | closedLast | closedKeep | closedSpin | congest | snooze
  | deadline | park | keepPending | keep | tryLast | tryClosed | selectClosed | clear =>
    exact .still _ _ trivial ⟨⟨.inr rfl, List.Subset.refl _, .inr rfl⟩, rfl, rfl, rfl⟩
  -- the agent gives up its waker
  | sendGone | tryFull | lastFail | openFail | recasErr | staleWoken | closedGone
  | closedErr | timeoutSingle | cancelled | selectClaim | selectPeek | selectNone =>
    exact .still _ _ trivial ⟨⟨.inr rfl, List.Subset.refl _, .inl rfl⟩, rfl, rfl, rfl⟩
  | spinReg c o fail kind =>
    refine .still _ _ trivial ⟨⟨.inr rfl, List.Subset.refl _, .inl rfl⟩, ?_, rfl, rfl⟩
    cases o <;> rfl
  | timeout | stale =>
    refine .still _ _ trivial ⟨⟨.inr rfl, ?_, .inl rfl⟩, rfl, rfl, rfl⟩
    exact List.cons_subset.mpr ⟨List.mem_singleton_self _, List.Subset.refl _⟩
  | cancel =>
    exact .still _ _ trivial ⟨⟨.inr rfl, List.Subset.refl _, .inl rfl⟩, rfl, rfl, rfl⟩
  | recasPanic | regDummy | retn =>
    exact .still _ _ trivial ⟨⟨.inl rfl, List.nil_subset _, .inl rfl⟩, rfl, rfl, rfl⟩
  | closedSettle c w state _ here blocking goes =>
    exact .still _ _ trivial (goes.still rfl rfl rfl rfl rfl)
  | congestNot c w _ goes | snoozeDone c w _ goes =>
    exact .still _ _ trivial (goes.still rfl rfl rfl rfl rfl)
  | snoozeWoken c w _ state goes | state c w _ goes =>
    exact .still _ _ trivial (goes.still rfl rfl rfl rfl rfl)
  | reuseWoken c w target state kind woken hstate =>
    refine .still _ _ trivial ?_
    cases state with
    | woken => exact ⟨⟨.inr rfl, List.Subset.refl _, .inr rfl⟩, rfl, rfl, rfl⟩
    | _ => exact ⟨⟨.inr rfl, List.Subset.refl _, .inl rfl⟩, rfl, rfl, rfl⟩
  | reuseClear c w target =>
    refine .still _ _ trivial ?_
    cases target <;> exact ⟨⟨.inr rfl, List.Subset.refl _, .inl rfl⟩, rfl, rfl, rfl⟩
  | reuse c w target kind =>
    refine .still _ _ trivial ?_
    cases target <;> exact ⟨⟨.inr rfl, List.nil_subset _, .inl rfl⟩, rfl, rfl, rfl⟩
  | reset c w =>
    exact .reset w (.reg c (some w) false) ⟨.inr rfl, List.Subset.refl _, .inl rfl⟩ rfl rfl
      (.inr rfl) rfl rfl (.inl ⟨c, rfl⟩)
  | recas c w fresh state =>
    refine .reset w _ ⟨.inr rfl, List.Subset.refl _, .inl rfl⟩ rfl rfl ?_ rfl rfl (.inr state)
    cases fresh
    · exact .inr rfl
    · exact .inl rfl
  | reg c w kind unlocked => exact .register c w rfl kind unlocked
  | regNew c o fresh kind unlocked => exact .regNew c o fresh rfl kind unlocked
  | swap c o fresh kind => exact .swap c o fresh rfl kind
  | commit c w =>
    exact .commit w _ ⟨⟨.inr rfl, List.Subset.refl _, .inr rfl⟩, rfl, rfl, rfl⟩ rfl
  | commitWoken c w state async =>
    refine .still _ _ state.symm ⟨⟨.inr rfl, List.Subset.refl _, .inr rfl⟩, rfl, rfl, rfl⟩
  | clearSkip x w oneshot k =>
    exact .still _ _ trivial
      (Cont.still rfl (List.subset_cons_self _ _) (.inl hfits.2) rfl rfl)
  | clearLock x w oneshot k unlocked =>
    exact .clear x w oneshot k rfl
      (Cont.still rfl (List.subset_cons_self _ _) (.inl hfits.2) rfl rfl)
  | abandonOk x w expected k =>
    exact .abandon w _ ⟨⟨.inr rfl, List.Subset.refl _, .inl rfl⟩, rfl, rfl, rfl⟩
      List.mem_cons_self rfl
  | abandonFire x w expected k _ goes =>
    exact .still _ _ rfl (goes.still rfl (List.subset_cons_self _ _) (.inl hfits.2) rfl rfl)
  | abandonErr x w expected k =>
    exact .still _ _ rfl (Cont.still rfl (List.subset_cons_self _ _) (.inl hfits.2) rfl rfl)
  | abandonRetry x w expected expected' k =>
    exact .still _ _ rfl ⟨⟨.inr rfl, List.Subset.refl _, .inl rfl⟩, rfl, rfl, rfl⟩
  | fire x f k _ _ step => exact move_of_fireStep step
  | close x f _ _ step => exact move_of_closeStep step

/-! ## Every step fits -/

theorem Fires.fits (h : Fires cfg x k pc') (hk : k.Fits) : pc'.Fits := by
  cases h with
  | dummy kind => exact hk.pc
  | fire kind => exact hk

theorem Tries.fits {k : Ret → Cont} {r : Ret} (h : Tries pc c k) (hpc : pc.Fits) : (k r).Fits := by
  cases h with
  | sendKeep m sink t v => exact ⟨rfl, rfl⟩
  | doubleTx c v side => exact ⟨hpc, side, rfl⟩
  | _ => exact trivial

theorem Settles.fits {state : WakerState} (h : Settles c w state pc') (hc : c.isBlocking = true) :
    pc'.Fits := by
  cases h with
  | spin woken notClosed => exact Call.registers_of_isBlocking hc
  | last closed side => exact side
  | err woken side => exact trivial
  | sleep _ notWoken goes => cases goes <;> exact hc

theorem reused_fits (hc : c.registers = true) (state : WakerState) :
    (reused c none state).Fits := by
  cases state with
  | woken => exact ⟨hc, rfl⟩
  | _ => exact trivial

theorem fireStep_fits {f : FirePc} (h : FireStep cfg s x k f e pc') (hk : k.Fits) : pc'.Fits := by
  cases h with
  | skip _ pc _ _ _ _ goes | wakeByRef _ _ _ _ goes => cases goes <;> first | exact hk.pc | exact hk
  | _ => first | exact hk.pc | exact hk

/-- Every agent stays at a point of its own side. -/
theorem fits_of_pcStep (h : PcStep cfg s i pc e pc') (hfits : pc.Fits) : pc'.Fits := by
  cases h with
  | recv _ _ _ _ _ _ tries _ _ goes | send _ _ _ _ _ tries _ _ _ goes =>
    exact goes.fits (tries.fits hfits)
  | sinkGone _ _ _ call | lastKeep _ _ _ call => exact call
  | pollOpen c o here registers async => exact registers
  | sendFail c o blocking => exact Call.registers_of_isBlocking blocking
  | startFail c => exact Call.registers_of_isBlocking hfits.1
  | spinReset c w fail kind blocking => exact blocking
  | spinRecas _ _ _ _ async | closedKeep _ _ _ _ async => exact ⟨hfits, async⟩
  | contended c w side => exact ⟨hfits, side, rfl⟩
  | recas | recasClosed | recasSame | staleWoken => exact hfits.1
  | stale c w => exact ⟨hfits.1, rfl⟩
  | reset => exact Call.registers_of_isBlocking hfits
  | closedLast c w state gone side => exact side
  | closedSettle c w state _ here blocking goes => exact goes.fits (blocking hfits)
  | snoozeWoken c w _ state goes | state c w _ goes => exact goes.fits hfits
  | congestNot c w _ goes | snoozeDone c w _ goes => cases goes <;> exact hfits
  | timeout | cancel => exact ⟨trivial, rfl⟩
  | reuseWoken c w target state kind woken hstate =>
    cases state with
    | woken => exact hfits.1
    | _ => exact trivial
  | reuseClear c w target =>
    refine ⟨reused_fits hfits.1 target, ?_⟩
    cases target <;> rfl
  | reuse c w target kind => exact (reused_fits hfits.1 target).pc
  | clearSkip | clearLock | abandonErr => exact hfits.1.pc
  | abandonFire x w expected k _ goes => exact goes.fits hfits.1
  | fire x f k _ _ step => exact fireStep_fits step hfits
  | close x f _ _ step => cases step <;> exact trivial
  | tryLast gone => exact rfl
  | _ => first | exact trivial | exact hfits

/-- A call starts in a place that fits it. -/
theorem startPc_fits (c : Call) : (startPc c).Fits := by
  cases c with
  | recv d => exact ⟨rfl, rfl⟩
  | pollSend m sink k => cases sink <;> exact ⟨rfl, fun _ => rfl⟩
  | trySelect final => cases final <;> exact trivial
  | send m d | trySend m => exact ⟨rfl, fun _ => rfl⟩
  | pollItem stream k => exact rfl
  | tryRecv => exact trivial

theorem Repolls.fits {c' : Call} (h : Repolls w c c' pc') : pc'.Fits := by
  cases h with
  | item => exact rfl
  | send | sink => exact ⟨rfl, nofun⟩

end Moves

/-! ## The call goes on -/

section Calls

variable {ι : Type} [Fintype ι] {cfg : Cfg} {s : St ι} {e : Eff} {pc pc' : Pc} {x : Side}
  {c : Call} {k : Cont} {w : Nat} {r : Ret}

@[simp] theorem Cont.call_pc (k : Cont) : k.pc.call = k.call := by cases k <;> rfl

theorem Fires.call (h : Fires cfg x k pc') : pc'.call = k.call := by
  cases h with
  | dummy => exact k.call_pc
  | fire => rfl

theorem Tries.call {k : Ret → Cont} (h : Tries pc c k) : pc.call = some c := by cases h <;> rfl

theorem Tries.call_cont {k : Ret → Cont} (h : Tries pc c k) : (k r).call = some c := by
  cases h <;> rfl

theorem Sleeps.call (h : Sleeps c w pc') : pc'.call = some c := by cases h <;> rfl

theorem Settles.call {state : WakerState} (h : Settles c w state pc') : pc'.call = some c := by
  cases h with
  | sleep _ _ goes => exact goes.call
  | _ => rfl

theorem reused_call (c : Call) (o : Option Nat) (state : WakerState) :
    (reused c o state).call = some c := by
  cases state <;> rfl

theorem Wakes.call {rest : Rest} {result : WakeResult} (h : Wakes x w k rest result pc') :
    pc'.call = k.call := by
  cases h with
  | leave => exact k.call_pc
  | _ => rfl

theorem fireStep_of_pcStep {i : ι} {f : FirePc} (h : PcStep cfg s i (.fire x f k) e pc') :
    FireStep cfg s x k f e pc' := by
  cases h with
  | recv _ _ _ _ _ _ tries => cases tries
  | send _ _ _ _ _ tries => cases tries
  | fire _ _ _ _ _ step => exact step

/-- A step inside `fire` stays there or leaves it. -/
theorem fireStep_goes {f : FirePc} (h : FireStep cfg s x k f e pc') :
    pc' = k.pc ∨ ∃ f', pc' = .fire x f' k := by
  cases h with
  | skip _ _ _ _ _ _ goes | wakeByRef _ _ _ _ goes =>
    cases goes <;> first | exact .inl rfl | exact .inr ⟨_, rfl⟩
  | _ => first | exact .inl rfl | exact .inr ⟨_, rfl⟩

theorem fireStep_call {f : FirePc} (h : FireStep cfg s x k f e pc') : pc'.call = k.call := by
  cases h with
  | skip _ _ _ _ _ _ goes | wakeByRef _ _ _ _ goes => exact goes.call
  | _ => first | rfl | exact k.call_pc

end Calls

end Crossfire.Channel
