import Crossfire.Waiting.Calls

/-!
# No impossible branch of the waiting code is reached

Every loop and every command of a party keeps the rules (`body_meets`, `start_wp`), and so does
every operation on the shared state (`exec_sound`). `impossible_branches_unreachable` says what
follows for every run.
-/

set_option autoImplicit false

namespace Crossfire.Waiting

open Lib.Interleaving Lib.Programs Crossfire.Waker Crossfire.Registry
open Crossfire.Channel (Side RegKind)

/-! ## Loops and commands -/

section Functions

variable {V α : Type} {cfg : Flavor} {x : Side} {ctx : Nat}

/-- **Every loop meets its contract.** -/
theorem body_meets (f : Fn V) (h : fnRequires cfg f) : Meets cfg f := by
  cases f with
  | wake w state => exact wakeBody_wp fun _ => trivial
  | changeStateSmallerEq w condition target state => exact changeStateSmallerEq_meets h
  | cellPop x ptr => exact cellPopBody_wp fun _ => trivial
  | fireAgain x lastSeq => exact fireAgainBody_wp fun _ => trivial
  | close x => exact closeBody_wp trivial
  | senderSnooze o => exact senderSnooze_meets h.1 h.2
  | trySends v => exact trySends_meets
  | tryRecvs => exact tryRecvsBody_wp fun _ => trivial
  | pollSend sink ctx v o => exact pollSend_meets h
  | pollItem stream ctx o => exact pollItem_meets h
  | sendBounded v deadline o => exact sendBounded_meets
  | sendWait deadline o state => exact sendWait_meets h.1 h.2.1 h.2.2
  | recvBlocking deadline o => exact recvBlocking_meets
  | recvWait deadline o state => exact recvWait_meets h.1 h.2

/-- A future, sink or stream between two polls. -/
def Obj.Fits : Obj V → Prop
  | .sendFuture f | .sendTimeoutFuture f => f.Fits
  | .recvFuture waker | .recvTimeoutFuture waker | .sink waker => Async waker
  | .stream s => Async s.waker

/-- What the party holds fits its side. -/
def Local.Fits (l : Local V) : Prop := ∀ obj, l.obj = some obj → obj.Fits

theorem Local.fits_none {handle : Option Side} : (⟨handle, none⟩ : Local V).Fits := nofun

variable {obj : Obj V}

theorem Local.fits_some {handle : Option Side} (h : obj.Fits) :
    (⟨handle, some obj⟩ : Local V).Fits := by
  rintro obj' ⟨⟩
  exact h

theorem Obj.fits_of_isNew (h : obj.isNew = true) : obj.Fits := by
  have hnone {o : Option ArcWaker} (ho : o.isNone = true) : Async o := by
    rw [Option.isNone_iff_eq_none.mp ho]
    exact async_none
  cases obj with
  | sendFuture f | sendTimeoutFuture f => exact hnone (Bool.and_eq_true_iff.mp h).2
  | recvFuture waker | recvTimeoutFuture waker | sink waker => exact hnone h
  | stream s => exact hnone (Bool.and_eq_true_iff.mp h).1

/-- A poll leaves an object that fits. -/
theorem Obj.poll_wp {code : Code V (Obj V)} {Q : Obj V → Prop} (hobj : obj.Fits)
    (hcode : obj.poll cfg ctx = some code) (h : ∀ obj, obj.Fits → Q obj) :
    code.wp (rules cfg) Q := by
  cases obj with
  | sink waker => cases hcode
  | sendFuture f =>
    cases hcode
    exact seq_wp (SendFuture.poll_wp hobj fun _ f hf => h (.sendFuture f) hf)
  | sendTimeoutFuture f =>
    cases hcode
    exact seq_wp (SendFuture.pollTimeout_wp hobj fun _ f hf => h (.sendTimeoutFuture f) hf)
  | recvFuture waker =>
    cases hcode
    exact seq_wp (RecvFuture.poll_wp hobj fun _ o ho => h (.recvFuture o) ho)
  | recvTimeoutFuture waker =>
    cases hcode
    exact seq_wp (RecvFuture.pollTimeout_wp hobj fun _ o ho => h (.recvTimeoutFuture o) ho)
  | stream s =>
    cases hcode
    exact seq_wp (AsyncStream.pollNext_wp hobj fun r hr => h (.stream r.2) hr)

theorem Obj.drop_wp {Q : Unit → Prop} (h : Q ()) : (obj.drop cfg).wp (rules cfg) Q := by
  cases obj with
  | sendFuture f | sendTimeoutFuture f => exact SendFuture.drop_wp h
  | recvFuture waker | recvTimeoutFuture waker | stream s => exact RecvFuture.drop_wp h
  | sink waker => exact AsyncSink.drop_wp h

theorem dropHandle_wp {Q : Unit → Prop} (h : Q ()) :
    (dropHandle cfg x : Code V _).wp (rules cfg) Q :=
  seq_wp (op_wp trivial fun _ _ => ite_wp (fun _ => close_wp h) fun _ => h)

/-- A call of a party with a handle and nothing else. -/
theorem Local.calls_wp {l : Local V} {code : Code V α} {p : Code V (Local V)} (hl : l.Fits)
    (hcode : code.wp (rules cfg) fun _ => True) (hp : l.calls x code = some p) :
    p.wp (rules cfg) Local.Fits := by
  unfold Local.calls at hp
  cases hobj : l.obj with
  | some obj => simp [hobj] at hp
  | none =>
    simp only [hobj] at hp
    split_ifs at hp
    cases hp
    exact seq_wp (Prog.wp_mono hcode fun _ _ => hl)

/-- **Every command meets its contract.** -/
theorem start_wp {l : Local V} {c : Command V} {p : Code V (Local V)} (hl : l.Fits)
    (hp : start cfg l c = some p) : p.wp (rules cfg) Local.Fits := by
  cases c with
  | clone x =>
    simp only [start] at hp
    split_ifs at hp
    cases hp
    exact seq_wp (op_wp trivial fun _ _ => Local.fits_none)
  | dropHandle =>
    simp only [start] at hp
    split at hp
    · cases hp
      exact seq_wp (dropHandle_wp Local.fits_none)
    · cases hp
  | send v => exact Local.calls_wp hl (Tx.send_wp fun _ => trivial) hp
  | sendTimeout v overflow => exact Local.calls_wp hl (Tx.sendTimeout_wp fun _ => trivial) hp
  | trySend v => exact Local.calls_wp hl (Tx.trySend_wp fun _ => trivial) hp
  | recv => exact Local.calls_wp hl (Rx.recv_wp fun _ => trivial) hp
  | recvTimeout overflow => exact Local.calls_wp hl (Rx.recvTimeout_wp fun _ => trivial) hp
  | tryRecv => exact Local.calls_wp hl (Rx.tryRecv_wp fun _ => trivial) hp
  | make obj =>
    simp only [start] at hp
    split_ifs at hp with hnew
    cases hp
    exact Local.fits_some (Obj.fits_of_isNew hnew.2.2)
  | poll ctx =>
    obtain ⟨obj, hobj, hp⟩ := Option.bind_eq_some_iff.mp hp
    obtain ⟨code, hcode, rfl⟩ := Option.map_eq_some_iff.mp hp
    exact seq_wp (Obj.poll_wp (hl obj hobj) hcode fun obj h => Local.fits_some h)
  | pollSend ctx v =>
    simp only [start] at hp
    split at hp
    · rename_i waker hobj
      cases hp
      have hasync : Async waker := hl _ hobj
      exact seq_wp (AsyncSink.pollSend_wp hasync fun _ o ho => Local.fits_some ho)
    · cases hp
  | pollItem ctx =>
    simp only [start] at hp
    split at hp
    · rename_i s hobj
      cases hp
      have hasync : Async s.waker := hl _ hobj
      exact seq_wp (AsyncStream.pollItem_wp hasync fun r hr => Local.fits_some hr)
    · cases hp
  | dropObj =>
    obtain ⟨obj, _, rfl⟩ := Option.map_eq_some_iff.mp hp
    exact seq_wp (Obj.drop_wp Local.fits_none)

end Functions

/-! ## Runs -/

section Runs

variable {ι V : Type} [DecidableEq ι] {cfg : Flavor} {s s' : Shared ι V} {i : ι} {choice : Choice}

/-- What the operations of every party keep. -/
structure Sound (s : Shared ι V) : Prop where
  notDone : ∀ ptr, (s.waker ptr).state ≠ .done
  polls : ∀ p ∈ s.polls, Settled p.1 p.2

omit [DecidableEq ι] in
theorem Sound.of_eq (h : Sound s) (hstate : ∀ ptr, (s'.waker ptr).state = (s.waker ptr).state)
    (hpolls : s'.polls = s.polls) : Sound s' := by
  refine ⟨fun ptr => ?_, ?_⟩
  · rw [hstate]
    exact h.notDone ptr
  · rw [hpolls]
    exact h.polls

omit [DecidableEq ι] in
theorem Sound.setWaker (h : Sound s) {ptr : Nat} {inner : WakerInner ι}
    (hinner : inner.state ≠ .done) : Sound (s.setWaker ptr inner) :=
  ⟨forall_phase (P := fun inner : WakerInner ι => inner.state ≠ .done)
    (fun ptr _ => h.notDone ptr) hinner, h.polls⟩

omit [DecidableEq ι] in
theorem Sound.exchange (h : Sound s) {w : ArcWaker} {current new : WakerState} {spurious : Bool}
    (hnew : new ≠ .done) : Sound (s.exchange w current new spurious).2 := by
  unfold Shared.exchange
  split_ifs
  · exact h.setWaker hnew
  · exact h

omit [DecidableEq ι] in
/-- An exchange that fails found another state or was spurious. -/
theorem exchange_found {w : ArcWaker} {current new found : WakerState} {spurious : Bool}
    (h : s.exchange w current new spurious = (some found, s')) :
    found = (s.waker w.ptr).state ∧ (found = current → spurious = true) := by
  unfold Shared.exchange at h
  split_ifs at h with hsame
  · cases h
  · cases h
    refine ⟨rfl, fun hcurrent => ?_⟩
    by_contra hspurious
    exact hsame ⟨hcurrent, Bool.eq_false_of_not_eq_true hspurious⟩

theorem Sound.wakeByRef (h : Sound s) {w : ArcWaker} {a : Unit}
    (hexec : exec cfg s i choice (.wakeByRef w) = some (a, s')) : Sound s' := by
  simp only [exec] at hexec
  split at hexec
  · cases hexec
    exact h.of_eq (fun _ => rfl) rfl
  · cases hexec
    exact h

/-- **Every operation answers as promised.** -/
theorem exec_sound {o : Op V} {a : o.Ans} (h : Sound s) (hbefore : opBefore o)
    (hexec : exec cfg s i choice o = some (a, s')) : opAfter cfg o a ∧ Sound s' := by
  have hfree {α : Type} {x : Side} {out out' : α × Shared ι V}
      (hout : s.underLock x out = some out') : out = out' := by
    unfold Shared.underLock at hout
    split_ifs at hout
    exact Option.some.inj hout
  cases o with
  | trySend v =>
    simp only [exec] at hexec
    split_ifs at hexec with hrefuses
    · cases hexec
      refine ⟨fun hcap => ?_, h⟩
      -- an unbounded queue refuses nothing
      simp [Shared.refuses, Shared.isFull, hcap] at hrefuses
    · cases hexec
      exact ⟨fun _ => rfl, h.of_eq (fun _ => rfl) rfl⟩
  | trySendOneshot | tryRecv | addHandle | park | cellTake =>
    simp only [exec] at hexec
    split_ifs at hexec <;> cases hexec <;> exact ⟨trivial, h.of_eq (fun _ => rfl) rfl⟩
  | isClosed x | getSeq w | upgrade ptr | cellIsEmpty x | cellLoad x | loadFlags x | timer
  | backoff =>
    cases hexec
    exact ⟨trivial, h⟩
  | subHandle x | cellReplace x w | closePop x | unlock x =>
    cases hexec
    exact ⟨trivial, h.of_eq (fun _ => rfl) rfl⟩
  | newWaker waker =>
    cases hexec
    have hinit : WakerState.init ≠ .done := nofun
    have hnew : Sound (s.setWaker s.nextWaker ⟨.init, 0, waker, i⟩) := h.setWaker hinit
    exact ⟨rfl, hnew.of_eq (fun _ => rfl) rfl⟩
  | loadState w =>
    cases hexec
    exact ⟨h.notDone w.ptr, h⟩
  | storeState w state =>
    cases hexec
    exact ⟨trivial, h.setWaker hbefore⟩
  | compareExchange w current new =>
    have hout : s.exchange w current new false = (a, s') := Option.some.inj hexec
    have hsound : Sound (a, s').2 := hout ▸ h.exchange hbefore
    refine ⟨?_, hsound⟩
    rintro found rfl
    obtain ⟨rfl, hspurious⟩ := exchange_found hout
    -- the strong exchange fails only on another state
    have hother : (s.waker w.ptr).state ≠ current := fun hcurrent => nomatch hspurious hcurrent
    exact ⟨hother, h.notDone w.ptr⟩
  | compareExchangeWeak w current new =>
    have hout : s.exchange w current new choice.flag = (a, s') := Option.some.inj hexec
    have hsound : Sound (a, s').2 := hout ▸ h.exchange hbefore
    refine ⟨?_, hsound⟩
    rintro found rfl
    obtain ⟨rfl, -⟩ := exchange_found hout
    exact h.notDone w.ptr
  | wakeByRef w => exact ⟨trivial, h.wakeByRef hexec⟩
  | regWaker x w =>
    cases hfree hexec
    have hreg : Sound (s.setReg x ((s.reg x).regWaker w.ptr)) := h.of_eq (fun _ => rfl) rfl
    exact ⟨trivial, hreg.setWaker (h.notDone w.ptr)⟩
  | popFirst x flags | popAgain x | clearWakers x oldSeq oneshot | lock x =>
    cases hfree hexec
    exact ⟨trivial, h.of_eq (fun _ => rfl) rfl⟩
  | polled r o =>
    cases hexec
    refine ⟨trivial, h.notDone, fun p hp => ?_⟩
    rcases List.mem_cons.mp hp with rfl | hp
    · exact hbefore
    · exact h.polls p hp

/-- **The program keeps every rule.** -/
theorem machine_obeys : (machine cfg : Machine (sig V) Panic _ ι _ _ _).Obeys (rules cfg) Sound
    Local.Fits where
  init := by
    rintro s l ⟨a, b, _, rfl, rfl⟩
    exact ⟨⟨nofun, nofun⟩, fun _ => Local.fits_none⟩
  exec _ _ _ _ _ _ h hbefore hexec := exec_sound h hbefore hexec
  body := body_meets
  start _ _ _ h hp := start_wp h hp

/-- In every run of any number of parties on one channel, with every kind of registry: the only
panic is that of a completed `SendFuture` or `SendTimeoutFuture` that is polled again, so no
`unreachable!()`, no `unwrap` of a missing waker, no `debug_assert` and no "impossible for async" is
reached; and every `poll_send` that returned `Pending` left a waker in its `o_waker`, every one that
returned `Ready(Ok)` left none. -/
theorem impossible_branches_unreachable {t : Threads (sig V) Panic (Local V) ι (Shared ι V)}
    (h : Reachable (machine cfg).system t) :
    (∀ i e, t.prog i = .panic e → e = .polledAfterCompletion) ∧
      ∀ p ∈ t.shared.polls,
        (p.1 = .pending → p.2.isSome = true) ∧ (p.1 = .ready (.ok ()) → p.2 = none) :=
  ⟨fun _ _ hpanic => machine_obeys.panics_of_reach h hpanic,
    (machine_obeys.wp_of_reach h).1.polls⟩

/-- A bounded channel of capacity one with a `RegistryMulti` on both sides. -/
def mpmcOne : Flavor where
  cap := some 1
  kind _ := .multi
  willWake old ctx := decide (old = ctx)
  selectClaims := false
  unbounded := nofun
  waits := nofun

/-- The channel is full. A future is polled by task 5 and pending; a receiver takes the message and
fires; the next poll, by task 6, sends. -/
theorem impossible_branches_repoll :
    ∃ t : Threads (sig Nat) Panic (Local Nat) (Fin 2) (Shared (Fin 2) Nat),
      Reachable (machine mpmcOne).system t ∧
      t.shared.polls = [(.ready (.ok ()), none), (.pending, some ⟨0, .async 5⟩)] ∧
      ∀ i e, t.prog i = .panic e → e = .polledAfterCompletion := by
  have hnew : Reachable (machine mpmcOne).system
      (⟨Shared.new 0, fun i => .ret (handles 0 1 i)⟩ :
        Threads (sig Nat) Panic (Local Nat) (Fin 2) (Shared (Fin 2) Nat)) :=
    .init ⟨handles 0 1, ⟨0, 1, by decide, rfl, rfl⟩, rfl⟩
  obtain ⟨t, ht, hpolls⟩ := hnew.exists_of_run
    ([.command 0 (.trySend 1)] ++ List.replicate 3 (.go 0 ⟨false, fun _ => true⟩) ++
      [.command 0 (.make (.sendTimeoutFuture ⟨true, 2, none⟩)), .command 0 (.poll 5)] ++
      List.replicate 11 (.go 0 ⟨false, fun _ => true⟩) ++
      [.command 1 .tryRecv] ++ List.replicate 8 (.go 1 ⟨false, fun _ => true⟩) ++
      [.command 0 (.poll 6)] ++ List.replicate 5 (.go 0 ⟨false, fun _ => true⟩))
    (fun t => t.shared.polls = [(.ready (.ok ()), none), (.pending, some ⟨0, .async 5⟩)])
    (by decide +kernel)
  exact ⟨t, ht, hpolls, (impossible_branches_unreachable ht).1⟩

end Runs

end Crossfire.Waiting
