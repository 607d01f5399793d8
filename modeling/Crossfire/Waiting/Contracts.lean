import Crossfire.Waiting.Model

/-!
# Contracts of the waiting code

Whether an `o_waker` is there is decided in several layers, so each function of the waiting code has
a contract: what it needs of its `o_waker` and what it leaves there. `rules` collects what the
operations and the loops may assume and have to ensure. The lemmas derive the weakest precondition
of a function from its contract; here are those of `waker.rs` and `waker_registry.rs`.

The one fact about the other parties is that no waker ever gets the state `Done`: `Done` is a number
that `cancel_reuse_waker` returns, and nobody stores it.
-/

set_option autoImplicit false

namespace Crossfire.Waiting

open Lib.Interleaving Lib.Programs Crossfire.Waker Crossfire.Registry
open Crossfire.Channel (Side RegKind)

/-- An `o_waker` of a future, a sink or a stream: what is in it wakes a task. -/
def Async (o : Option ArcWaker) : Prop := ∀ w, o = some w → ∃ k, w.waker = .async k

/-- What the result of `poll_send` says about its `o_waker`. -/
def Settled (r : Poll (Except Unit Unit)) (o : Option ArcWaker) : Prop :=
  (r = .pending → o.isSome = true) ∧ (r = .ready (.ok ()) → o = none)

/-- What `poll_item` leaves: no waker with a message. -/
def Received {V : Type} (r : Except TryRecvError V) (o : Option ArcWaker) : Prop :=
  (∀ v, r = .ok v → o = none) ∧ Async o

/-- What a waiting loop returns. -/
def Waited (deadline : Bool) (r : Option WakerState) : Prop :=
  (r = none → deadline = true) ∧ ∀ s, r = some s → s = .woken ∨ s = .closed

section Rules

variable {V : Type} (cfg : Flavor)

/-- What the code guarantees to an operation. -/
def opBefore : Op V → Prop
  | .storeState _ state => state ≠ .done
  | .compareExchange _ _ new | .compareExchangeWeak _ _ new => new ≠ .done
  | .polled r o => Settled r o
  | _ => True

/-- What an answer tells the code. -/
def opAfter : (o : Op V) → o.Ans → Prop
  | .trySend _, sent => cfg.cap = none → sent = true
  | .newWaker waker, w => w.waker = waker
  | .loadState _, state => state ≠ .done
  | .compareExchange _ current _, found => ∀ s, found = some s → s ≠ current ∧ s ≠ .done
  | .compareExchangeWeak _ _ _, found => ∀ s, found = some s → s ≠ .done
  | _, _ => True

/-- What a loop needs at its head. -/
def fnRequires : Fn V → Prop
  | .changeStateSmallerEq _ _ target _ => target ≠ .done
  | .senderSnooze o => cfg.kind .tx ≠ .dummy ∧ o.isSome = true
  | .pollSend _ _ _ o | .pollItem _ _ o => Async o
  | .sendWait _ o state =>
    cfg.kind .tx ≠ .dummy ∧ state ≠ .done ∧ (state.isWoken = false → o.isSome = true)
  | .recvWait _ o state => state ≠ .done ∧ o.isSome = true
  | _ => True

/-- What a loop gives when it ends. -/
def fnEnsures : (f : Fn V) → f.Res → Prop
  | .changeStateSmallerEq _ condition _ _, r =>
    ∀ s, r = .error s → condition.toNat < s.toNat ∧ s ≠ .done
  | .senderSnooze _, state => state ≠ .done
  | .trySends _, sent => cfg.cap = none → sent = true
  | .pollSend _ _ _ _, (r, o) => Settled r o ∧ Async o
  | .pollItem _ _ _, (r, o) => Received r o
  | .sendBounded _ deadline _, r => ∀ v, r = .error (.timeout v) → deadline = true
  | .recvBlocking deadline _, r => r = .error .timeout → deadline = true
  | .sendWait deadline _ _, r | .recvWait deadline _ _, r => Waited deadline r
  | _, _ => True

/-- The only panic left is the one for a future that is polled after it was completed. -/
def rules : Rules (sig V) Panic where
  before := opBefore
  after := opAfter cfg
  requires := fnRequires cfg
  ensures := fnEnsures cfg
  panics e := e = .polledAfterCompletion

/-- The body of a loop keeps the contract of the loop. -/
def Meets (f : Fn V) : Prop := (body cfg f).wp (rules cfg) (fnEnsures cfg f)

end Rules

section Functions

variable {V α β : Type} {cfg : Flavor} {x : Side} {w : ArcWaker} {o : Option ArcWaker} {v : V}
  {state : WakerState} {ctx : Nat}

theorem op_wp {a : Op V} {Q : a.Ans → Prop} (hbefore : opBefore a)
    (h : ∀ b, opAfter cfg a b → Q b) : (op a).wp (rules cfg) Q :=
  ⟨hbefore, h⟩

theorem loop_wp {f : Fn V} {Q : f.Res → Prop} (hrequires : fnRequires cfg f)
    (h : ∀ r, fnEnsures cfg f r → Q r) : (loop f).wp (rules cfg) Q :=
  ⟨hrequires, h⟩

theorem seq_wp {p : Code V α} {k : α → Code V β} {Q : β → Prop}
    (h : p.wp (rules cfg) fun a => (k a).wp (rules cfg) Q) : (p >>= k).wp (rules cfg) Q :=
  (Prog.wp_bind p k).mpr h

theorem ite_wp {c : Prop} [Decidable c] {p q : Code V α} {Q : α → Prop}
    (hp : c → p.wp (rules cfg) Q) (hq : ¬c → q.wp (rules cfg) Q) :
    (if c then p else q).wp (rules cfg) Q := by
  split_ifs with h
  · exact hp h
  · exact hq h

theorem debugAssert_wp {b : Bool} {Q : Unit → Prop} (hb : b = true) (h : Q ()) :
    (debugAssert b : Code V Unit).wp (rules cfg) Q := by
  subst hb
  exact h

/-! ## `waker.rs` -/

theorem wake_wp {Q : WakeResult → Prop} (h : ∀ r, Q r) : (w.wake : Code V _).wp (rules cfg) Q :=
  seq_wp (op_wp trivial fun _ _ => loop_wp trivial fun r _ => h r)

theorem wakeBody_wp {Q : WakeResult → Prop} (h : ∀ r, Q r) :
    (w.wakeBody state : Code V _).wp (rules cfg) Q := by
  refine ite_wp (fun _ => h .skip) fun _ => ite_wp (fun _ => ?_) fun _ => ?_
  · exact seq_wp (op_wp nofun fun _ _ => seq_wp (op_wp trivial fun _ _ => h .woken))
  · refine seq_wp (op_wp nofun fun found _ => ?_)
    cases found with
    | none => exact seq_wp (op_wp trivial fun _ _ => h .next)
    | some s => exact loop_wp trivial fun r _ => h r

/-- A refusal finds a larger state. -/
theorem changeStateSmallerEq_wp {condition target : WakerState}
    {Q : Except WakerState WakerState → Prop} (htarget : target ≠ .done)
    (hok : ∀ s, Q (.ok s)) (herr : ∀ s, condition.toNat < s.toNat → s ≠ .done → Q (.error s)) :
    (w.changeStateSmallerEq condition target : Code V _).wp (rules cfg) Q := by
  refine loop_wp htarget fun r hr => ?_
  cases r with
  | ok s => exact hok s
  | error s => exact herr s (hr s rfl).1 (hr s rfl).2

/-- The exchange loop meets its contract. -/
theorem changeStateSmallerEq_meets {condition target : WakerState} (htarget : target ≠ .done) :
    Meets cfg (.changeStateSmallerEq w condition target state : Fn V) := by
  refine seq_wp (op_wp htarget fun found hfound => ?_)
  cases found with
  | none => exact nofun
  | some s =>
    refine ite_wp (fun hlt => ?_) fun _ => loop_wp htarget fun r hr => hr
    rintro s' ⟨⟩
    exact ⟨hlt, hfound s rfl⟩

/-- `abandon` fails on a waker that is woken or closed. -/
theorem abandon_wp {Q : Except WakerState Unit → Prop} (hok : Q (.ok ()))
    (hwoken : Q (.error .woken)) (hclosed : Q (.error .closed)) :
    (w.abandon : Code V _).wp (rules cfg) Q := by
  refine seq_wp (changeStateSmallerEq_wp nofun (fun _ => hok) fun s hlt hdone => ?_)
  cases s with
  | init | waiting => exact absurd hlt (by decide)
  | woken => exact hwoken
  | closed => exact hclosed
  | done => exact absurd rfl hdone

theorem closeWake_wp {Q : Bool → Prop} (h : ∀ b, Q b) :
    (w.closeWake : Code V _).wp (rules cfg) Q :=
  seq_wp (changeStateSmallerEq_wp nofun
    (fun _ => seq_wp (op_wp trivial fun _ _ => h true)) fun _ _ _ => h false)

theorem wakerCommit_wp {Q : WakerState → Prop} (h : ∀ s, s ≠ .done → Q s) :
    (w.commitWaiting : Code V _).wp (rules cfg) Q := by
  refine seq_wp (op_wp nofun fun found hfound => ?_)
  cases found with
  | none => exact h .waiting nofun
  | some s => exact h s (hfound s rfl).2

theorem willWake_wp {Q : Bool → Prop} (hasync : Async (some w)) (h : ∀ b, Q b) :
    (w.willWake cfg ctx : Code V _).wp (rules cfg) Q := by
  obtain ⟨k, hk⟩ := hasync w rfl
  rw [ArcWaker.willWake, hk]
  exact h _

/-! ## `waker_registry.rs` -/

theorem cellPop_wp {Q : Option ArcWaker → Prop} (h : ∀ r, Q r) :
    (cellPop x : Code V _).wp (rules cfg) Q := by
  refine seq_wp (op_wp trivial fun ptr _ => ?_)
  cases ptr with
  | none => exact h none
  | some ptr => exact loop_wp trivial fun r _ => h r

theorem cellPopBody_wp {Q : Option ArcWaker → Prop} {ptr : Nat} (h : ∀ r, Q r) :
    (cellPopBody x ptr : Code V _).wp (rules cfg) Q := by
  refine seq_wp (op_wp trivial fun held _ => ?_)
  rcases held with _ | _ | ptr'
  · exact op_wp trivial fun r _ => h r
  · exact h none
  · exact loop_wp trivial fun r _ => h r

theorem clearWakers_wp {oneshot : Bool} {Q : Unit → Prop} (h : Q ()) :
    (clearWakers x w oneshot : Code V _).wp (rules cfg) Q := by
  refine seq_wp (op_wp trivial fun flags _ => ite_wp (fun _ => ?_) fun _ => h)
  exact seq_wp (op_wp trivial fun _ _ => op_wp trivial fun _ _ => h)

/-- `fire` needs nothing and promises nothing. -/
theorem fire_wp {Q : WakeResult → Prop} (h : ∀ r, Q r) :
    (fire cfg x : Code V _).wp (rules cfg) Q := by
  unfold fire
  cases cfg.kind x with
  | dummy => exact h .next
  | single =>
    refine seq_wp (cellPop_wp fun popped => ?_)
    cases popped with
    | none => exact h .next
    | some w => exact seq_wp (wake_wp fun _ => h .next)
  | multi =>
    refine seq_wp (seq_wp (op_wp trivial fun flags _ => ite_wp (fun _ => h .next) fun _ => ?_))
    refine op_wp trivial fun popped _ => ?_
    rcases popped with _ | ⟨w, last⟩
    · exact h .next
    · refine seq_wp (wake_wp fun r => ite_wp (fun _ => h r) fun _ => ?_)
      cases last with
      | none => exact h .next
      | some last => exact loop_wp trivial fun r _ => h r

/-- One round of `fire`. -/
theorem fireAgainBody_wp {lastSeq : Nat} {Q : WakeResult → Prop} (h : ∀ r, Q r) :
    (fireAgainBody x lastSeq : Code V _).wp (rules cfg) Q := by
  refine seq_wp (seq_wp (op_wp trivial fun flags _ => ite_wp (fun _ => h .next) fun _ => ?_))
  refine op_wp trivial fun popped _ => ?_
  cases popped with
  | none => exact h .next
  | some w =>
    refine seq_wp (wake_wp fun r => ite_wp (fun _ => h r) fun _ => ?_)
    refine seq_wp (op_wp trivial fun seq _ => ite_wp (fun _ => h .next) fun _ => ?_)
    exact loop_wp trivial fun r _ => h r

theorem close_wp {Q : Unit → Prop} (h : Q ()) : (close cfg x : Code V _).wp (rules cfg) Q := by
  unfold close
  cases cfg.kind x with
  | dummy => exact h
  | single => exact seq_wp (fire_wp fun _ => h)
  | multi =>
    refine seq_wp (op_wp trivial fun _ _ => seq_wp (loop_wp trivial fun _ _ => ?_))
    exact op_wp trivial fun _ _ => h

theorem closeBody_wp {Q : Unit → Prop} (h : Q ()) :
    (closeBody x : Code V _).wp (rules cfg) Q := by
  refine seq_wp (op_wp trivial fun popped _ => ?_)
  cases popped with
  | none => exact h
  | some ptr =>
    refine seq_wp (op_wp trivial fun upgraded _ => ?_)
    cases upgraded with
    | none => exact loop_wp trivial fun _ _ => h
    | some w => exact seq_wp (closeWake_wp fun _ => loop_wp trivial fun _ _ => h)

/-- `get_waker_state` needs a registry and a waker. -/
theorem getWakerState_wp {Q : WakerState → Prop} (hkind : cfg.kind x ≠ .dummy)
    (ho : o.isSome = true) (h : ∀ s, s ≠ .done → Q s) :
    (getWakerState cfg x o : Code V _).wp (rules cfg) Q := by
  obtain ⟨w, rfl⟩ := Option.isSome_iff_exists.mp ho
  unfold getWakerState
  cases hx : cfg.kind x with
  | dummy => exact absurd hx hkind
  | single =>
    refine seq_wp (op_wp trivial fun isEmpty _ => h _ ?_)
    split_ifs <;> nofun
  | multi => exact op_wp trivial h

/-- `commit_waiting` needs a waker. -/
theorem commitWaiting_wp {Q : WakerState → Prop} (ho : o.isSome = true)
    (h : ∀ s, s ≠ .done → Q s) : (commitWaiting cfg x o : Code V _).wp (rules cfg) Q := by
  obtain ⟨w, rfl⟩ := Option.isSome_iff_exists.mp ho
  unfold commitWaiting
  cases cfg.kind x with
  | multi => exact wakerCommit_wp h
  | dummy | single => exact h .init nofun

/-- A waker that cannot be abandoned is woken or closed. -/
theorem abandonWaker_wp {Q : Except WakerState Unit → Prop} (hok : Q (.ok ()))
    (hwoken : Q (.error .woken)) (hclosed : Q (.error .closed)) :
    (abandonWaker cfg x w : Code V _).wp (rules cfg) Q := by
  unfold abandonWaker
  cases cfg.kind x with
  | multi => exact seq_wp (abandon_wp (seq_wp (clearWakers_wp hok)) hwoken hclosed)
  | dummy | single => exact hok

theorem cancelWaker_wp {Q : Option ArcWaker → Prop} (h : Q none) :
    (cancelWaker cfg x o : Code V _).wp (rules cfg) Q := by
  unfold cancelWaker
  split
  · refine seq_wp (op_wp trivial fun s _ => ite_wp (fun _ => h) fun _ => ?_)
    exact seq_wp (clearWakers_wp h)
  · exact h

/-- `cancel_reuse_waker` needs a waker and returns a number from `Woken` on; it keeps the waker only
if it was woken or closed. -/
theorem cancelReuseWaker_wp {target : WakerState} {Q : WakerState × Option ArcWaker → Prop}
    (ho : o.isSome = true) (hnone : Q (target, none)) (hkept : Q (target, o))
    (hcurrent : ∀ s, s.isWoken = true → s ≠ .done → ¬s.toNat < target.toNat → Q (s, o)) :
    (cancelReuseWaker cfg o target : Code V _).wp (rules cfg) Q := by
  obtain ⟨w, rfl⟩ := Option.isSome_iff_exists.mp ho
  unfold cancelReuseWaker
  cases cfg.kind .tx with
  | multi =>
    refine seq_wp (op_wp trivial fun current hcur => ite_wp (fun hwoken => ?_) fun _ => ?_)
    · by_cases hlt : current.toNat < target.toNat
      · rw [if_pos hlt]
        exact hkept
      · rw [if_neg hlt]
        exact hcurrent current hwoken hcur hlt
    · exact seq_wp (clearWakers_wp hnone)
  | dummy | single => exact hnone

theorem async_some {k : Nat} (hw : w.waker = .async k) : Async (some w) := by
  rintro w' ⟨⟩
  exact ⟨k, hw⟩

theorem async_none : Async none := nofun

/-- What a registration by a task leaves. -/
def Registered (r : Option (Poll Unit) × Option ArcWaker) : Prop := r.2.isSome = true ∧ Async r.2

theorem regNewAsync_wp {Q : Option (Poll Unit) × Option ArcWaker → Prop}
    (h : ∀ r, Registered r → Q r) : (regNewAsync x ctx : Code V _).wp (rules cfg) Q := by
  refine seq_wp (op_wp trivial fun w hw => seq_wp (op_wp trivial fun _ _ => ?_))
  exact h (none, some w) ⟨rfl, async_some hw⟩

/-- `_reg_waker_async` finds no state but `Init`, `Waiting` and `Closed` when the state was not
`Woken`. -/
theorem regAgainAsync_wp {Q : Option (Poll Unit) × Option ArcWaker → Prop}
    (hasync : Async (some w)) (h : ∀ r, Registered r → Q r) :
    (regAgainAsync cfg x ctx w : Code V _).wp (rules cfg) Q := by
  have hkept (r : Option (Poll Unit)) : Q (r, some w) := h (r, some w) ⟨rfl, hasync⟩
  refine seq_wp (op_wp nofun fun found hfound => ?_)
  cases found with
  | none =>
    refine seq_wp (willWake_wp hasync fun same => ite_wp (fun _ => ?_) fun _ => ?_)
    · exact seq_wp (op_wp trivial fun _ _ => hkept none)
    · exact regNewAsync_wp h
  | some state =>
    obtain ⟨hwoken, hdone⟩ := hfound state rfl
    refine ite_wp (fun _ => ?_) fun hlt => ite_wp (fun _ => hkept _) fun hclosed => ?_
    · refine seq_wp (willWake_wp hasync fun same => ite_wp (fun _ => hkept _) fun _ => ?_)
      refine seq_wp (op_wp trivial fun current _ => seq_wp (ite_wp (fun _ => ?_) fun _ => ?_))
      · exact clearWakers_wp (regNewAsync_wp h)
      · exact regNewAsync_wp h
    · cases state with
      | init | waiting => exact absurd (by decide) hlt
      | woken => exact absurd rfl hwoken
      | closed => exact absurd rfl hclosed
      | done => exact absurd rfl hdone

/-- A poll registers a waker of its context. -/
theorem regWakerAsync_wp {Q : Option (Poll Unit) × Option ArcWaker → Prop}
    (hkind : cfg.kind x ≠ .dummy) (hasync : Async o) (h : ∀ r, Registered r → Q r) :
    (regWakerAsync cfg x ctx o : Code V _).wp (rules cfg) Q := by
  unfold regWakerAsync
  cases hx : cfg.kind x with
  | dummy => exact absurd hx hkind
  | single =>
    refine seq_wp (op_wp trivial fun w hw => seq_wp (op_wp trivial fun _ _ => ?_))
    exact h (none, some w) ⟨rfl, async_some hw⟩
  | multi =>
    cases o with
    | none => exact regNewAsync_wp h
    | some w => exact regAgainAsync_wp hasync h

/-- A blocking call registers a waker. -/
theorem regWakerBlocking_wp {Q : Option ArcWaker → Prop} (hkind : cfg.kind x ≠ .dummy)
    (h : ∀ w, Q (some w)) : (regWakerBlocking cfg x o : Code V _).wp (rules cfg) Q := by
  unfold regWakerBlocking
  cases hx : cfg.kind x with
  | dummy => exact absurd hx hkind
  | single => exact seq_wp (op_wp trivial fun w _ => seq_wp (op_wp trivial fun _ _ => h w))
  | multi =>
    cases o with
    | none => exact seq_wp (op_wp trivial fun w _ => seq_wp (op_wp trivial fun _ _ => h w))
    | some w => exact seq_wp (op_wp nofun fun _ _ => seq_wp (op_wp trivial fun _ _ => h w))

end Functions

end Crossfire.Waiting
