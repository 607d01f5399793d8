import Crossfire.Waiting.Contracts

/-!
# The calls that wait keep their contracts

`shared.rs`, `async_tx.rs`, `sink.rs`, `async_rx.rs`, `stream.rs`, `blocking_tx.rs` and
`blocking_rx.rs`. A registration leaves a waker, and a state below `Woken` after
`sender_double_check` means that it is still there (`senderDoubleCheck_wp`). So `poll_send` is
pending with a waker only (`pollSend_meets`), and a sender or receiver that parks has one to look at
and to abandon (`sendPark_wp`, `recvWait_meets`).
-/

set_option autoImplicit false

namespace Crossfire.Waiting

open Lib.Interleaving Lib.Programs Crossfire.Waker Crossfire.Registry
open Crossfire.Channel (Side RegKind)

section Functions

variable {V α β : Type} {cfg : Flavor} {x : Side} {w : ArcWaker} {o : Option ArcWaker} {v : V}
  {state : WakerState} {ctx : Nat}

/-! ## `shared.rs` -/

/-- `try_send` of an unbounded channel succeeds. -/
theorem sendOnce_wp {Q : Bool → Prop} (htrue : Q true) (hfalse : cfg.cap.isSome = true → Q false) :
    (sendOnce cfg v).wp (rules cfg) Q := by
  refine seq_wp (op_wp trivial fun sent hsent => ite_wp (fun _ => ?_) fun hfail => ?_)
  · exact seq_wp (fire_wp fun _ => htrue)
  · refine hfalse ?_
    cases hcap : cfg.cap with
    | none => exact absurd (hsent hcap) hfail
    | some n => rfl

theorem recvOnce_wp {Q : Option V → Prop} (h : ∀ r, Q r) : (recvOnce cfg).wp (rules cfg) Q := by
  refine seq_wp (op_wp trivial fun item _ => ?_)
  cases item with
  | none => exact h none
  | some v => exact seq_wp (fire_wp fun _ => h (some v))

/-- Only a bounded queue can be full. -/
theorem trySends_wp {Q : Bool → Prop} (htrue : Q true) (hfalse : cfg.cap.isSome = true → Q false) :
    (loop (.trySends v)).wp (rules cfg) Q := by
  refine loop_wp trivial fun sent hsent => ?_
  cases sent with
  | true => exact htrue
  | false =>
    refine hfalse ?_
    cases hcap : cfg.cap with
    | none => cases hsent hcap
    | some n => rfl

theorem trySends_meets : Meets cfg (.trySends v) := by
  refine seq_wp (sendOnce_wp (fun _ => rfl) fun hcap => ?_)
  refine seq_wp (op_wp trivial fun completed _ => ite_wp (fun _ hnone => ?_) fun _ => ?_)
  · rw [hnone] at hcap
    cases hcap
  · exact loop_wp trivial fun sent hsent => hsent

theorem tryRecvsBody_wp {Q : Option V → Prop} (h : ∀ r, Q r) :
    (tryRecvsBody cfg).wp (rules cfg) Q := by
  refine seq_wp (recvOnce_wp fun item => ?_)
  cases item with
  | some v => exact h (some v)
  | none =>
    refine seq_wp (op_wp trivial fun _ _ => ite_wp (fun _ => h none) fun _ => ?_)
    exact loop_wp trivial fun r _ => h r

theorem abandonSendWaker_wp {Q : Unit → Prop} (h : Q ()) :
    (abandonSendWaker cfg w : Code V _).wp (rules cfg) Q :=
  seq_wp (abandonWaker_wp h (seq_wp (fire_wp fun _ => h)) (debugAssert_wp rfl h))

theorem abandonRecvWaker_wp {Q : Unit → Prop} (h : Q ()) :
    (abandonRecvWaker cfg w : Code V _).wp (rules cfg) Q :=
  seq_wp (abandonWaker_wp h (seq_wp (fire_wp fun _ => h)) h)

/-- `sender_double_check` after a registration: a state below `Woken` leaves the waker. -/
theorem senderDoubleCheck_wp {sink : Bool} {Q : WakerState × Option ArcWaker → Prop}
    (hcap : cfg.cap.isSome = true) (ho : o.isSome = true)
    (hkept : ∀ s, Q (s, o)) (hnone : ∀ s, s.isWoken = true → Q (s, none)) :
    (senderDoubleCheck cfg sink v o).wp (rules cfg) Q := by
  obtain ⟨n, hn⟩ := Option.isSome_iff_exists.mp hcap
  unfold senderDoubleCheck
  rw [hn]
  have hreuse {target : WakerState} (htarget : target.isWoken = true) :
      (cancelReuseWaker cfg o target : Code V _).wp (rules cfg) Q :=
    cancelReuseWaker_wp ho (hnone target htarget) (hkept target) fun s _ _ _ => hkept s
  refine seq_wp (op_wp trivial fun sent _ => ?_)
  rcases sent with _ | _ | _
  · exact hreuse rfl
  · have hclosed (state : WakerState) :
        (do
          let closed ← op (.isClosed .rx)
          pure (if closed then WakerState.closed else state, o) : Code V _).wp (rules cfg) Q :=
      seq_wp (op_wp trivial fun closed _ => hkept _)
    refine seq_wp (ite_wp (fun _ => hclosed .init) fun _ => ?_)
    exact commitWaiting_wp ho fun s _ => hclosed s
  · exact seq_wp (fire_wp fun _ => hreuse rfl)

/-- The sleep meets its contract. -/
theorem senderSnooze_meets (hkind : cfg.kind .tx ≠ .dummy) (ho : o.isSome = true) :
    Meets cfg (.senderSnooze o : Fn V) := by
  refine seq_wp (getWakerState_wp hkind ho fun state hstate => ?_)
  refine ite_wp (fun _ => hstate) fun _ => seq_wp (op_wp trivial fun _ _ => ?_)
  exact ite_wp (fun _ => hstate) fun _ => loop_wp ⟨hkind, ho⟩ fun r hr => hr

/-- Only a deadline times out. -/
theorem checkTimeout_wp {deadline : Bool} {Q : Bool → Prop} (htrue : deadline = true → Q true)
    (hfalse : Q false) : (checkTimeout deadline : Code V _).wp (rules cfg) Q := by
  refine ite_wp (fun hdeadline => op_wp trivial fun late _ => ?_) fun _ => hfalse
  cases late with
  | true => exact htrue hdeadline
  | false => exact hfalse

/-- A registry of senders belongs to a bounded channel. -/
theorem kind_tx_ne_dummy (hcap : cfg.cap.isSome = true) : cfg.kind .tx ≠ .dummy := by
  intro hkind
  rw [cfg.unbounded hkind] at hcap
  cases hcap

/-! ## `async_tx.rs` and `sink.rs` -/

theorem settled_error : Settled (.ready (.error ())) o := ⟨nofun, nofun⟩

theorem settled_ok : Settled (.ready (.ok ())) none := ⟨nofun, fun _ => rfl⟩

theorem settled_pending (ho : o.isSome = true) : Settled .pending o := ⟨fun _ => ho, nofun⟩

/-- After the double check. -/
theorem pollSendChecked_wp {sink : Bool} (hasync : Async o)
    (ho : state.isWoken = false → o.isSome = true) :
    (pollSendChecked sink ctx v state o).wp (rules cfg)
      fun r => Settled r.1 r.2 ∧ Async r.2 := by
  have hdone : Settled (.ready (.ok ())) none ∧ Async none := ⟨settled_ok, async_none⟩
  have hclosed : Settled (.ready (.error ())) none ∧ Async none := ⟨settled_error, async_none⟩
  cases state with
  | init | waiting => exact ⟨settled_pending (ho rfl), hasync⟩
  | woken => exact seq_wp (debugAssert_wp rfl (loop_wp hasync fun r hr => hr))
  | closed => exact seq_wp (debugAssert_wp rfl hclosed)
  | done => exact hdone

/-- After the registration. -/
theorem pollSendReg_wp {sink : Bool} (hcap : cfg.cap.isSome = true) (hasync : Async o) :
    (pollSendReg cfg sink ctx v o).wp (rules cfg) fun r => Settled r.1 r.2 ∧ Async r.2 := by
  refine seq_wp (regWakerAsync_wp (kind_tx_ne_dummy hcap) hasync fun r hr => ?_)
  obtain ⟨hsome, hasync⟩ := hr
  rcases r with ⟨_ | _ | ⟨⟨⟩⟩, o⟩
  · refine seq_wp (senderDoubleCheck_wp hcap hsome (fun s => ?_) fun s hs => ?_)
    · exact pollSendChecked_wp hasync fun _ => hsome
    · refine pollSendChecked_wp async_none fun hwoken => ?_
      rw [hs] at hwoken
      cases hwoken
  · exact ⟨settled_pending hsome, hasync⟩
  · exact ⟨settled_error, hasync⟩

/-- One round of `poll_send`. -/
theorem pollSend_meets {sink : Bool} (hasync : Async o) :
    Meets cfg (.pollSend sink ctx v o) := by
  have hreg (hcap : cfg.cap.isSome = true) :
      (pollSendReg cfg sink ctx v o).wp (rules cfg) fun r => Settled r.1 r.2 ∧ Async r.2 :=
    pollSendReg_wp hcap hasync
  refine seq_wp (sendOnce_wp ⟨settled_ok, async_none⟩ fun hcap => ?_)
  cases o with
  | none =>
    refine seq_wp (op_wp trivial fun spins _ => seq_wp (ite_wp (fun _ => ?_) fun _ => hreg hcap))
    exact trySends_wp ⟨settled_ok, async_none⟩ fun _ => hreg hcap
  | some w => exact hreg hcap

/-- `poll_send`. -/
theorem pollSend_wp {sink : Bool} {Q : Poll (Except Unit Unit) × Option ArcWaker → Prop}
    (hasync : Async o) (h : ∀ r o, Settled r o → Async o → Q (r, o)) :
    (pollSend sink ctx v o).wp (rules cfg) Q := by
  have hreturn (r : Poll (Except Unit Unit)) (o : Option ArcWaker) (hr : Settled r o)
      (hasync : Async o) : (do
        op (.polled r o)
        pure (r, o) : Code V _).wp (rules cfg) Q :=
    seq_wp (op_wp hr fun _ _ => h r o hr hasync)
  refine seq_wp (op_wp trivial fun closed _ => seq_wp (ite_wp (fun _ => ?_) fun _ => ?_))
  · exact hreturn (.ready (.error ())) o settled_error hasync
  · exact loop_wp hasync fun r hr => hreturn r.1 r.2 hr.1 hr.2

theorem isNone_of_settled (hr : Settled (.ready (.ok ())) o) : o.isNone = true := by
  rw [hr.2 rfl]
  rfl

/-- A future between two polls. -/
def SendFuture.Fits (f : SendFuture V) : Prop := Async f.waker

theorem SendFuture.poll_wp {f : SendFuture V} {Q : Poll (Except V Unit) × SendFuture V → Prop}
    (hf : f.Fits) (h : ∀ r f, f.Fits → Q (r, f)) : (f.poll ctx).wp (rules cfg) Q := by
  refine ite_wp (fun _ => seq_wp (pollSend_wp hf fun r o hr hasync => ?_)) fun _ => rfl
  rcases r with _ | ⟨⟨⟩⟩
  · exact h _ _ hasync
  · exact h _ _ async_none
  · exact seq_wp (debugAssert_wp (isNone_of_settled hr) (h _ _ hasync))

/-- The timer of a `SendTimeoutFuture` is looked at after a `Pending`, so that there is a waker to
abandon. -/
theorem SendFuture.pollTimeout_wp {f : SendFuture V}
    {Q : Poll (Except (SendTimeoutError V) Unit) × SendFuture V → Prop} (hf : f.Fits)
    (h : ∀ r f, f.Fits → Q (r, f)) : (f.pollTimeout cfg ctx).wp (rules cfg) Q := by
  refine ite_wp (fun _ => seq_wp (pollSend_wp hf fun r o hr hasync => ?_)) fun _ => rfl
  rcases r with _ | ⟨⟨⟩⟩
  · refine seq_wp (op_wp trivial fun late _ => ite_wp (fun _ => ?_) fun _ => h _ _ hasync)
    obtain ⟨w, rfl⟩ := Option.isSome_iff_exists.mp (hr.1 rfl)
    exact seq_wp (abandonSendWaker_wp (h _ _ async_none))
  · exact h _ _ async_none
  · exact seq_wp (debugAssert_wp (isNone_of_settled hr) (h _ _ hasync))

theorem SendFuture.drop_wp {f : SendFuture V} {Q : Unit → Prop} (h : Q ()) :
    (f.drop cfg).wp (rules cfg) Q := by
  refine ite_wp (fun _ => ?_) fun _ => h
  cases f.waker with
  | none => exact h
  | some w => exact abandonSendWaker_wp h

theorem AsyncSink.pollSend_wp {Q : Except (TrySendError V) Unit × Option ArcWaker → Prop}
    (hasync : Async o) (h : ∀ r o, Async o → Q (r, o)) :
    (AsyncSink.pollSend cfg ctx v o).wp (rules cfg) Q := by
  refine seq_wp (sendOnce_wp (h _ _ hasync) fun _ => ?_)
  refine seq_wp (Waiting.pollSend_wp hasync fun r o _ hasync => ?_)
  rcases r with _ | ⟨⟨⟩⟩ <;> exact h _ _ hasync

theorem AsyncSink.drop_wp {Q : Unit → Prop} (h : Q ()) :
    (AsyncSink.drop cfg o : Code V _).wp (rules cfg) Q := by
  cases o with
  | none => exact h
  | some w => exact abandonSendWaker_wp h

/-! ## `async_rx.rs` and `stream.rs` -/

theorem received_ok : Received (.ok v) none := ⟨fun _ _ => rfl, async_none⟩

theorem received_error {e : TryRecvError} (hasync : Async o) :
    Received (.error e : Except TryRecvError V) o :=
  ⟨nofun, hasync⟩

theorem onRecvWaker_wp : (onRecvWaker cfg v o).wp (rules cfg) fun r => Received r.1 r.2 :=
  seq_wp (cancelWaker_wp received_ok)

theorem pollItemEnd_wp (hasync : Async o) :
    (pollItemEnd cfg o : Code V _).wp (rules cfg) fun r => Received r.1 r.2 := by
  refine seq_wp (op_wp trivial fun closed _ => ite_wp (fun _ => ?_) fun _ => received_error hasync)
  refine seq_wp (recvOnce_wp fun item => ?_)
  cases item with
  | none => exact received_error hasync
  | some v => exact onRecvWaker_wp

/-- After the registration. -/
theorem pollItemReg_wp {stream : Bool} (hasync : Async o) :
    (pollItemReg cfg stream ctx o : Code V _).wp (rules cfg) fun r => Received r.1 r.2 := by
  refine seq_wp (regWakerAsync_wp cfg.waits hasync fun r hr => ?_)
  obtain ⟨hsome, hasync⟩ := hr
  rcases r with ⟨_ | _, o⟩
  · refine seq_wp (recvOnce_wp fun item => ?_)
    cases item with
    | some v => exact onRecvWaker_wp
    | none =>
      refine ite_wp (fun _ => pollItemEnd_wp hasync) fun _ => ?_
      refine seq_wp (commitWaiting_wp hsome fun state _ => ite_wp (fun _ => ?_) fun _ => ?_)
      · exact loop_wp hasync fun r hr => hr
      · exact pollItemEnd_wp hasync
  · exact pollItemEnd_wp hasync

/-- One round of `poll_item`. -/
theorem pollItem_meets {stream : Bool} (hasync : Async o) :
    Meets cfg (.pollItem stream ctx o : Fn V) := by
  have hreg : (pollItemReg cfg stream ctx o : Code V _).wp (rules cfg) fun r => Received r.1 r.2 :=
    pollItemReg_wp hasync
  refine seq_wp (recvOnce_wp fun item => ?_)
  cases o with
  | none =>
    cases item with
    | some v => exact received_ok
    | none =>
      refine seq_wp (op_wp trivial fun spins _ => seq_wp (ite_wp (fun _ => ?_) fun _ => hreg))
      refine loop_wp trivial fun item _ => ?_
      cases item with
      | none => exact hreg
      | some v => exact received_ok
  | some w =>
    cases item with
    | some v => exact onRecvWaker_wp
    | none => exact hreg

theorem pollItem_wp {stream : Bool} {Q : Except TryRecvError V × Option ArcWaker → Prop}
    (hasync : Async o) (h : ∀ r o, Received r o → Q (r, o)) :
    (pollItem stream ctx o).wp (rules cfg) Q :=
  loop_wp hasync fun r hr => h r.1 r.2 hr

theorem RecvFuture.poll_wp {Q : Poll (Except Unit V) × Option ArcWaker → Prop}
    (hasync : Async o) (h : ∀ r o, Async o → Q (r, o)) :
    (RecvFuture.poll ctx o).wp (rules cfg) Q := by
  refine seq_wp (pollItem_wp hasync fun r o hr => ?_)
  rcases r with (_ | _) | v
  · exact h _ _ hr.2
  · exact h _ _ async_none
  · refine seq_wp (debugAssert_wp ?_ (h _ _ hr.2))
    rw [hr.1 v rfl]
    rfl

theorem RecvFuture.pollTimeout_wp {Q : Poll (Except RecvTimeoutError V) × Option ArcWaker → Prop}
    (hasync : Async o) (h : ∀ r o, Async o → Q (r, o)) :
    (RecvFuture.pollTimeout ctx o).wp (rules cfg) Q := by
  refine seq_wp (pollItem_wp hasync fun r o hr => ?_)
  rcases r with (_ | _) | v
  · refine seq_wp (op_wp trivial fun late _ => ite_wp (fun _ => ?_) fun _ => ?_)
    · exact h _ _ hr.2
    · exact h _ _ hr.2
  · exact h _ _ hr.2
  · exact h _ _ hr.2

theorem RecvFuture.drop_wp {Q : Unit → Prop} (h : Q ()) :
    (RecvFuture.drop cfg o : Code V _).wp (rules cfg) Q := by
  cases o with
  | none => exact h
  | some w => exact abandonRecvWaker_wp h

theorem AsyncStream.polled_async {s : AsyncStream} {r : Except TryRecvError V}
    (hr : Received r o) : Async (s.polled (r, o)).2.waker := by
  rcases r with (_ | _) | v <;> exact hr.2

theorem AsyncStream.pollItem_wp {s : AsyncStream} {Q : Poll (Option V) × AsyncStream → Prop}
    (hs : Async s.waker) (h : ∀ r, Async r.2.waker → Q r) : (s.pollItem ctx).wp (rules cfg) Q :=
  seq_wp (Waiting.pollItem_wp hs fun _ _ hr => h _ (polled_async hr))

theorem AsyncStream.pollNext_wp {s : AsyncStream} {Q : Poll (Option V) × AsyncStream → Prop}
    (hs : Async s.waker) (h : ∀ r, Async r.2.waker → Q r) :
    (s.pollNext ctx).wp (rules cfg) Q := by
  refine ite_wp (fun _ => h _ hs) fun _ => ?_
  exact seq_wp (Waiting.pollItem_wp hs fun _ _ hr => h _ (polled_async hr))

/-! ## `blocking_tx.rs` -/

theorem mightCongest_wp {Q : Bool → Prop} (h : ∀ b, Q b) :
    (mightCongest cfg : Code V _).wp (rules cfg) Q := by
  unfold mightCongest
  cases cfg.kind .tx with
  | multi => exact seq_wp (op_wp trivial fun _ _ => h _)
  | dummy | single => exact h false

theorem isWoken_eq_false (h : state.toNat < WakerState.woken.toNat) : state.isWoken = false := by
  cases state <;> first | rfl | exact absurd h (by decide)

/-- The end of a waiting loop. -/
theorem woken_or_closed (hdone : state ≠ .done) (h : ¬state.toNat < WakerState.woken.toNat) :
    state = .woken ∨ state = .closed := by
  cases state with
  | init | waiting => exact absurd (by decide) h
  | woken => exact .inl rfl
  | closed => exact .inr rfl
  | done => exact absurd rfl hdone

theorem waited_timeout {deadline : Bool} (h : deadline = true) : Waited deadline none :=
  ⟨fun _ => h, nofun⟩

theorem waited_some {deadline : Bool} (hdone : state ≠ .done)
    (h : ¬state.toNat < WakerState.woken.toNat) : Waited deadline (some state) := by
  refine ⟨nofun, ?_⟩
  rintro s ⟨⟩
  exact woken_or_closed hdone h

/-- A sender that parks has a waker to look at, and to abandon when the deadline has passed. -/
theorem sendPark_wp {deadline : Bool} (hkind : cfg.kind .tx ≠ .dummy) (hdone : state ≠ .done)
    (ho : o.isSome = true) :
    (sendPark cfg deadline o state : Code V _).wp (rules cfg) (Waited deadline) := by
  have hagain {s : WakerState} (hs : s ≠ .done) :
      (loop (.sendWait deadline o s) : Code V _).wp (rules cfg) (Waited deadline) :=
    loop_wp ⟨hkind, hs, fun _ => ho⟩ fun r hr => hr
  refine ite_wp (fun _ => seq_wp (checkTimeout_wp (fun hdeadline => ?_) ?_)) fun _ => hagain hdone
  · obtain ⟨w, rfl⟩ := Option.isSome_iff_exists.mp ho
    exact seq_wp (abandonSendWaker_wp (waited_timeout hdeadline))
  · exact seq_wp (op_wp trivial fun _ _ => seq_wp (getWakerState_wp hkind ho fun s hs => hagain hs))

/-- One round of the wait of a sender. -/
theorem sendWait_meets {deadline : Bool} (hkind : cfg.kind .tx ≠ .dummy) (hdone : state ≠ .done)
    (ho : state.isWoken = false → o.isSome = true) :
    Meets cfg (.sendWait deadline o state : Fn V) := by
  refine ite_wp (fun hlt => ?_) fun hge => waited_some hdone hge
  have hsome := ho (isWoken_eq_false hlt)
  refine seq_wp (mightCongest_wp fun congested => seq_wp (ite_wp (fun _ => ?_) fun _ => ?_))
  · exact loop_wp ⟨hkind, hsome⟩ fun s hs => sendPark_wp hkind hs hsome
  · exact sendPark_wp hkind hdone hsome

/-- After the double check of a blocking sender. -/
theorem sendChecked_wp {deadline : Bool} (hkind : cfg.kind .tx ≠ .dummy)
    (ho : state.isWoken = false → o.isSome = true) :
    (sendChecked v deadline state o).wp (rules cfg)
      fun r => ∀ v, r = .error (.timeout v) → deadline = true := by
  refine ite_wp (fun _ => nofun) fun hdone => seq_wp (loop_wp ⟨hkind, hdone, ho⟩ fun r hr => ?_)
  cases r with
  | none => exact fun _ _ => hr.1 rfl
  | some s =>
    rcases hr.2 s rfl with rfl | rfl
    · exact loop_wp trivial fun r hr => hr
    · exact seq_wp (debugAssert_wp rfl nofun)

/-- The blocking send meets its contract. -/
theorem sendBounded_meets {deadline : Bool} : Meets cfg (.sendBounded v deadline o) := by
  refine seq_wp (trySends_wp nofun fun hcap => ?_)
  have hkind := kind_tx_ne_dummy hcap
  refine seq_wp (regWakerBlocking_wp hkind fun w => seq_wp ?_)
  refine senderDoubleCheck_wp hcap rfl (fun s => sendChecked_wp hkind fun _ => rfl) fun s hs => ?_
  refine sendChecked_wp hkind fun hwoken => ?_
  rw [hs] at hwoken
  cases hwoken

theorem sendBounded_wp {deadline : Bool} {Q : Except (SendTimeoutError V) Unit → Prop}
    (hok : Q (.ok ())) (hdisconnected : ∀ v, Q (.error (.disconnected v)))
    (htimeout : deadline = true → ∀ v, Q (.error (.timeout v))) :
    (sendBounded v deadline).wp (rules cfg) Q := by
  refine loop_wp trivial fun r hr => ?_
  rcases r with (v | v) | ⟨⟩
  · exact htimeout (hr v rfl) v
  · exact hdisconnected v
  · exact hok

/-- `Tx::send` has no deadline, so `_send_bounded` does not time out. -/
theorem Tx.send_wp {Q : Except V Unit → Prop} (h : ∀ r, Q r) :
    (Tx.send cfg v).wp (rules cfg) Q := by
  refine seq_wp (op_wp trivial fun closed _ => ite_wp (fun _ => h _) fun _ => ?_)
  refine seq_wp (sendOnce_wp (h _) fun hcap => ite_wp nofun fun _ => ?_)
  refine ite_wp (fun _ => ?_) fun hunbounded => absurd hcap hunbounded
  exact seq_wp (sendBounded_wp (h _) (fun _ => h _) nofun)

theorem Tx.sendTimeout_wp {overflow : Bool} {Q : Except (SendTimeoutError V) Unit → Prop}
    (h : ∀ r, Q r) : (Tx.sendTimeout cfg v overflow).wp (rules cfg) Q := by
  refine seq_wp (op_wp trivial fun closed _ => ite_wp (fun _ => h _) fun _ => ?_)
  refine seq_wp (sendOnce_wp (h _) fun _ => ite_wp nofun fun _ => ite_wp (fun _ => h _) fun _ => ?_)
  exact sendBounded_wp (h _) (fun _ => h _) fun _ _ => h _

theorem Tx.trySend_wp {Q : Except (TrySendError V) Unit → Prop} (h : ∀ r, Q r) :
    (Tx.trySend cfg v).wp (rules cfg) Q := by
  refine seq_wp (op_wp trivial fun closed _ => ite_wp (fun _ => h _) fun _ => ?_)
  exact seq_wp (sendOnce_wp (h _) fun _ => h _)

/-! ## `blocking_rx.rs` -/

/-- One round of the wait of a receiver. -/
theorem recvWait_meets {deadline : Bool} (hdone : state ≠ .done) (ho : o.isSome = true) :
    Meets cfg (.recvWait deadline o state : Fn V) := by
  refine ite_wp (fun _ => seq_wp (checkTimeout_wp (fun hdeadline => ?_) ?_)) fun hge =>
    waited_some hdone hge
  · obtain ⟨w, rfl⟩ := Option.isSome_iff_exists.mp ho
    exact seq_wp (abandonRecvWaker_wp (waited_timeout hdeadline))
  · refine seq_wp (op_wp trivial fun _ _ => seq_wp (getWakerState_wp cfg.waits ho fun s hs => ?_))
    exact loop_wp ⟨hs, ho⟩ fun r hr => hr

theorem recvLast_wp {Q : Except RecvTimeoutError V → Prop} (hok : ∀ v, Q (.ok v))
    (hdisconnected : Q (.error .disconnected)) : (recvLast cfg).wp (rules cfg) Q := by
  refine seq_wp (recvOnce_wp fun item => ?_)
  cases item with
  | none => exact hdisconnected
  | some v => exact hok v

/-- One round of `_recv_blocking`. -/
theorem recvBlocking_meets {deadline : Bool} : Meets cfg (.recvBlocking deadline o : Fn V) := by
  have hlast : (recvLast cfg : Code V _).wp (rules cfg)
      (fnEnsures cfg (.recvBlocking deadline o : Fn V)) := recvLast_wp nofun nofun
  refine seq_wp (regWakerBlocking_wp cfg.waits fun w => seq_wp (recvOnce_wp fun item => ?_))
  cases item with
  | some v => exact seq_wp (cancelWaker_wp nofun)
  | none =>
    refine seq_wp (commitWaiting_wp rfl fun state hdone => ?_)
    refine seq_wp (op_wp trivial fun closed _ => ite_wp (fun _ => hlast) fun _ => ?_)
    refine seq_wp (loop_wp ⟨hdone, rfl⟩ fun r hr => ?_)
    cases r with
    | none => exact fun _ => hr.1 rfl
    | some s =>
      refine ite_wp (fun _ => hlast) fun _ => seq_wp (loop_wp trivial fun item _ => ?_)
      cases item with
      | some v => exact nofun
      | none => exact loop_wp trivial fun r hr => hr

/-- `_recv_blocking`. -/
theorem recvBlocking_wp {deadline : Bool} {Q : Except RecvTimeoutError V → Prop}
    (hok : ∀ v, Q (.ok v)) (hdisconnected : Q (.error .disconnected))
    (htimeout : deadline = true → Q (.error .timeout)) :
    (recvBlocking cfg deadline).wp (rules cfg) Q := by
  refine seq_wp (recvOnce_wp fun item => ?_)
  cases item with
  | some v => exact hok v
  | none =>
    refine seq_wp (loop_wp trivial fun item _ => ?_)
    cases item with
    | some v => exact hok v
    | none =>
      refine loop_wp trivial fun r hr => ?_
      rcases r with (_ | _) | v
      · exact htimeout (hr rfl)
      · exact hdisconnected
      · exact hok v

/-- `Rx::recv` has no deadline, so `_recv_blocking` does not time out. -/
theorem Rx.recv_wp {Q : Except Unit V → Prop} (h : ∀ r, Q r) : (Rx.recv cfg).wp (rules cfg) Q :=
  seq_wp (recvBlocking_wp (fun _ => h _) (h _) nofun)

theorem Rx.tryRecv_wp {Q : Except TryRecvError V → Prop} (h : ∀ r, Q r) :
    (Rx.tryRecv cfg).wp (rules cfg) Q := by
  refine seq_wp (op_wp trivial fun closed _ => ite_wp (fun _ => ?_) fun _ => ?_)
  · refine seq_wp (recvOnce_wp fun item => ?_)
    cases item <;> exact h _
  · refine seq_wp (recvOnce_wp fun item => ?_)
    cases item <;> exact h _

theorem Rx.recvTimeout_wp {overflow : Bool} {Q : Except RecvTimeoutError V → Prop}
    (h : ∀ r, Q r) : (Rx.recvTimeout cfg overflow).wp (rules cfg) Q := by
  refine ite_wp (fun _ => seq_wp (tryRecv_wp fun r => ?_)) fun _ => ?_
  · rcases r with (_ | _) | v <;> exact h _
  · exact recvBlocking_wp (fun _ => h _) (h _) fun _ => h _

end Functions

end Crossfire.Waiting
