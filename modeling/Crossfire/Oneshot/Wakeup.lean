import Crossfire.Oneshot.Delivery

/-!
# The oneshot sender wakes the latest waker

`poll` replaces a waker by moving the byte from `WAKER_SET_FLAG` to zero, writing the slot and
moving the byte back. The sender can lock the byte at each of these points. `Signalled` follows the
waker in the slot through the sender's steps; `latest_waker_woken` says that a receiver whose last
poll returned `Pending` is woken through a waker equivalent to the one it passed, and that the slot
is not written while the sender may read it.

The runs are those without `recv` and `recv_timeout`; `try_recv` is allowed.
-/

set_option autoImplicit false

namespace Crossfire.Oneshot

open Lib.Interleaving

variable {τ κ : Type} {willWake : κ → κ → Bool} {s t : St τ κ}

/-- The call is not `recv` or `recv_timeout`. -/
def pollsOnly (_ : St τ κ) : Act τ κ → Prop
  | .recv _ => False
  | _ => True

instance (s : St τ κ) (a : Act τ κ) : Decidable (pollsOnly s a) :=
  match a with
  | .recv _ => inferInstanceAs (Decidable False)
  | .send _ | .dropTx | .stepTx _ | .tryRecv | .poll _ | .dropRx | .stepRx _ =>
    inferInstanceAs (Decidable True)

/-- Inside `_recv_blocking`, before `_consume_value`. -/
def RxPc.blocks : RxPc τ κ → Bool
  | .recvSpin _ | .recvLoop _ | .park _ | .abandon => true
  | .setWaker (.block _) | .setWakerCas (.block _) => true
  | _ => false

/-- The task waker of the running poll. -/
def RxPc.context : RxPc τ κ → Option κ
  | .poll k | .pollSlot k | .pollCancel k => some k
  | .setWaker (.poll k) | .setWakerCas (.poll k) => some k
  | _ => none

/-- Program counters at which the waker in the slot, if any, is registered. -/
def RxPc.registered : RxPc τ κ → Bool
  | .idle live => live
  | .tryRecv | .poll _ | .pollSlot _ | .pollCancel _ => true
  | _ => false

/-- The waker in the slot has been woken, or the sender is going to wake it. -/
def Signalled (s : St τ κ) : Prop :=
  match s.tx with
  | .alive | .sendValue _ | .notify _ _ => s.state = wakerSetFlag
  | .readWaker _ => True
  | .wake _ w => s.oWaker = some w
  | .finish _ | .free | .gone => ∃ w, s.oWaker = some w ∧ (s.stores, w) ∈ s.woken
  | .panicked => False

/-- The invariant of the runs without blocking calls. -/
structure Watched (willWake : κ → κ → Bool) (s : St τ κ) : Prop where
  nonblocking : s.rx.blocks = false
  context : ∀ k, s.rx.context = some k → s.polled = some k
  /-- A live receiver between calls has never polled, or its last waker is the one in the slot. -/
  idle : s.rx.holds = true → s.rx.context = none → s.rx.registered = true →
    s.polled = none ∨ ∃ k old, s.polled = some k ∧ s.oWaker = some (.async old) ∧
      willWake old k = true
  signalled : s.rx.registered = true → s.oWaker ≠ none → Signalled s
  /-- The slot is not written while the sender reads it. -/
  quiet : ∀ c, s.rx = .setWaker c ∨ s.rx = .setWakerCas c → ∀ exist, s.tx.stage ≠ .waking exist

theorem watched_new (willWake : κ → κ → Bool) : Watched willWake (St.new : St τ κ) where
  nonblocking := rfl
  context := nofun
  idle _ _ _ := .inl rfl
  signalled _ h := absurd rfl h
  quiet c h := by rcases h with h | h <;> cases h

/-! ## Steps of the sender -/

theorem TxStep.polled_eq (h : TxStep s t) : t.polled = s.polled := by
  cases h <;> rfl

theorem TxStep.slot_eq (h : TxStep s t) (hpc : s.tx ≠ .free) : t.oWaker = s.oWaker := by
  cases h with
  | free pc => exact absurd pc hpc
  | store | lock | lockWaker | retry | read | readNone | wake | finish | finishErr => rfl

/-- The sender starts waking only from a byte with the waker flag. -/
theorem TxStep.waking_cases (hinv : Inv s) (h : TxStep s t) {exist : Bool}
    (hwaking : t.tx.stage = .waking exist) :
    s.tx.stage = .waking exist ∨ s.state = wakerSetFlag := by
  cases h with
  | lockWaker e old pc word waker =>
    rw [word]
    exact .inr ((hinv.old e old pc).resolve_left waker)
  | retry e old pc =>
    dsimp only [afterNotify] at hwaking
    split_ifs at hwaking <;> cases hwaking
  | read e w pc | wake e w token pc =>
    rw [pc]
    exact .inl hwaking
  | store | lock | readNone | finish | finishErr | free => cases hwaking

theorem Signalled.of_unlocked (hstage : s.tx.stage = .unlocked)
    (hstate : s.state = wakerSetFlag) : Signalled s := by
  unfold Signalled
  cases hpc : s.tx with
  | alive | sendValue _ | notify _ _ => exact hstate
  | _ => rw [hpc] at hstage; cases hstage

theorem Signalled.state_eq (h : Signalled s) (hstage : s.tx.stage = .unlocked) :
    s.state = wakerSetFlag := by
  unfold Signalled at h
  cases hpc : s.tx with
  | alive | sendValue _ | notify _ _ => rw [hpc] at h; exact h
  | _ => rw [hpc] at hstage; cases hstage

/-- A registered waker stays signalled: the sender cannot lock the byte as a fresh one. -/
theorem Signalled.tx (h : Signalled s) (hinv : Inv s) (hrx : s.rx.holds = true)
    (hstep : TxStep s t) : Signalled t := by
  have h' := h
  unfold Signalled at h'
  cases hstep with
  | store v pc => exact .of_unlocked rfl (h.state_eq (by rw [pc]; rfl))
  | lock exist pc word =>
    have hstate := h.state_eq (by rw [pc]; rfl)
    rw [word] at hstate
    exact absurd hstate (by decide)
  | lockWaker => trivial
  | retry exist old pc =>
    have hstate := h.state_eq (by rw [pc]; rfl)
    exact .of_unlocked (by rw [hstate]; rfl) hstate
  | read exist w pc slot => exact slot
  | readNone exist pc slot => exact absurd slot (hinv.slot_of_readWaker pc)
  | wake exist w token pc =>
    rw [pc] at h'
    exact ⟨w, h', List.mem_cons_self⟩
  | finish exist pc | finishErr exist pc =>
    rw [pc] at h'
    exact h'
  | free pc =>
    rw [hinv.released_of_free pc] at hrx
    cases hrx

theorem Word.not_waking {g : Stage} {state : UInt8} {n : Nat} (h : Word g true state n)
    (hlock : hasFlag state lockFlag = false) (exist : Bool) : g ≠ .waking exist := by
  rintro rfl
  cases h with
  | waking => cases exist <;> exact absurd hlock (by decide)

theorem holds_of_registered {pc : RxPc τ κ} (h : pc.registered = true) : pc.holds = true := by
  cases pc <;> first | rfl | exact h

theorem RxWord.ne_wakerSet {k : κ} (h : RxWord s)
    (hpc : s.rx = .setWaker (.poll k) ∨ s.rx = .setWakerCas (.poll k)) :
    s.state ≠ wakerSetFlag := by
  unfold RxWord at h
  rcases hpc with pc | pc <;> rw [pc] at h <;> exact h

/-- A step of the sender. -/
theorem Watched.tx (h : Watched willWake s) (hinv : Inv s)
    (hrw : RxWord s) (hstep : TxStep s t) : Watched willWake t := by
  have hrx := hstep.rx_eq
  have hslot : s.rx.holds = true → t.oWaker = s.oWaker := by
    intro hholds
    refine hstep.slot_eq fun pc => ?_
    rw [hinv.released_of_free pc] at hholds
    cases hholds
  refine ⟨?_, fun k => ?_, ?_, ?_, ?_⟩
  · rw [hrx]
    exact h.nonblocking
  · rw [hrx, hstep.polled_eq]
    exact h.context k
  · rw [hrx]
    intro hholds hctx hreg
    rw [hslot hholds, hstep.polled_eq]
    exact h.idle hholds hctx hreg
  · rw [hrx]
    intro hreg hsome
    have hholds := holds_of_registered hreg
    rw [hslot hholds] at hsome
    exact (h.signalled hreg hsome).tx hinv hholds hstep
  · intro c hpc exist hwaking
    rw [hrx] at hpc
    rcases hstep.waking_cases hinv hwaking with hs | hs
    · exact h.quiet c hpc exist hs
    · cases c with
      | poll k => exact hrw.ne_wakerSet hpc hs
      | block d =>
        have hblocks := h.nonblocking
        rcases hpc with pc | pc <;> rw [pc] at hblocks <;> cases hblocks

/-! ## Steps of the receiver -/

/-- What a receiver step that only moves the program counter does to a running poll. -/
theorem RxMove.poll_spec {pc : RxPc τ κ} (hmove : RxMove s pc) (hblocks : s.rx.blocks = false) :
    pc.blocks = false ∧ (∀ k, pc.context = some k → s.rx.context = some k) ∧
      (pc.registered = true → s.rx.registered = true ∧ pc.context ≠ none) ∧
      ∀ c, pc = .setWaker c ∨ pc = .setWakerCas c → hasFlag s.state lockFlag = false := by
  cases hmove with
  | pollWaker _ pc | slotOther _ _ pc =>
    rw [pc]
    exact ⟨rfl, fun _ h => h, fun _ => ⟨rfl, nofun⟩, by rintro c (h | h) <;> cases h⟩
  | pollFresh k pc lock =>
    rw [pc]
    exact ⟨rfl, fun _ h => h, nofun, fun _ _ => lock⟩
  | takeNone | closeErr =>
    unfold afterState
    split_ifs
    all_goals exact ⟨rfl, nofun, nofun, by rintro c (h | h) <;> cases h⟩
  | spin d pc | spinEnd d pc | spinAgain d pc | loop d pc | loopTimeout d pc | loopPark d pc
  | parkReturn d pc =>
    rw [pc] at hblocks
    cases hblocks
  | tryRecv | poll | slotPanic | cancelErr | setErr | abandonErr =>
    exact ⟨rfl, nofun, nofun, by rintro c (h | h) <;> cases h⟩

/-- A receiver that leaves the poll, or gives up the block, has nothing to watch. -/
theorem Watched.of_left (hblocks : s.rx.blocks = false)
    (hctx : s.rx.context = none) (hreg : s.rx.registered = false)
    (hset : ∀ c, s.rx ≠ .setWaker c ∧ s.rx ≠ .setWakerCas c) : Watched willWake s where
  nonblocking := hblocks
  context k hk := by rw [hctx] at hk; cases hk
  idle _ _ h := by rw [hreg] at h; cases h
  signalled h := by rw [hreg] at h; cases h
  quiet c h := h.elim (fun h => absurd h (hset c).1) fun h => absurd h (hset c).2

/-- A step of the receiver. -/
theorem Watched.rx (h : Watched willWake s)
    (hrefl : ∀ k, willWake k k = true) (hinv : Inv s) (hstep : RxStep willWake s t) :
    Watched willWake t := by
  have hword := hinv.word
  have hknows := hinv.knows
  have hblocks := h.nonblocking
  unfold RxKnows at hknows
  cases hstep with
  | move pc token hmove =>
    obtain ⟨hb, hctx, hreg, hset⟩ := hmove.poll_spec hblocks
    rw [(hmove.spec hinv token).1] at hword
    exact {
      nonblocking := hb
      context := fun k hk => h.context k (hctx k hk)
      idle := fun _ hnone hr => absurd hnone (hreg hr).2
      signalled := fun hr => h.signalled (hreg hr).1
      quiet := fun c hc => hword.not_waking (hset c hc) }
  | empty pc =>
    exact {
      nonblocking := rfl
      context := nofun
      idle := fun _ _ _ => h.idle (by rw [pc]; rfl) (by rw [pc]; rfl) (by rw [pc]; rfl)
      signalled := fun _ => h.signalled (by rw [pc]; rfl)
      quiet := by rintro c (hc | hc) <;> cases hc }
  | slotSame k old pc slot same =>
    exact {
      nonblocking := rfl
      context := nofun
      idle := fun _ _ _ => .inr ⟨k, old, h.context k (by rw [pc]; rfl), slot, same⟩
      signalled := fun _ => h.signalled (by rw [pc]; rfl)
      quiet := by rintro c (hc | hc) <;> cases hc }
  | cancel k pc word =>
    rw [pc, word] at hword
    exact {
      nonblocking := rfl
      context := fun k' hk => h.context k' (by rw [pc]; exact hk)
      idle := nofun
      signalled := nofun
      quiet := fun c _ => hword.not_waking (by decide) }
  | set c pc =>
    have hquiet := h.quiet c (.inl pc)
    rw [pc] at hblocks
    cases c with
    | poll k =>
      exact {
        nonblocking := rfl
        context := fun k' hk => h.context k' (by rw [pc]; exact hk)
        idle := nofun
        signalled := nofun
        quiet := fun _ _ => hquiet }
    | block d => cases hblocks
  | setPoll k pc word =>
    rw [pc, word] at hword
    rw [pc] at hknows
    exact {
      nonblocking := rfl
      context := nofun
      idle := fun _ _ _ => .inr ⟨k, k, h.context k (by rw [pc]; rfl), hknows, hrefl k⟩
      signalled := fun _ _ => .of_unlocked (hword.unlocked_of_state (.inl rfl)) rfl
      quiet := by rintro c (hc | hc) <;> cases hc }
  -- blocking calls are excluded
  | setBlock d pc | timeout pc =>
    rw [pc] at hblocks
    cases hblocks
  | take c st pc =>
    refine .of_left ?_ ?_ ?_ ?_
    all_goals
      dsimp only [afterState]
      split_ifs
    all_goals first | rfl | exact fun c => ⟨nofun, nofun⟩
  | close c item st pc word | free c item pc =>
    cases c
    all_goals exact .of_left rfl rfl rfl fun _ => ⟨nofun, nofun⟩
  | dropClose pc =>
    refine .of_left ?_ ?_ ?_ ?_
    all_goals
      dsimp only
      split_ifs
    all_goals first | rfl | exact fun c => ⟨nofun, nofun⟩
  | dropFree pc => exact .of_left rfl rfl rfl fun _ => ⟨nofun, nofun⟩

/-- The start of a call. -/
theorem Watched.call {a : Act τ κ}
    (h : Watched willWake s) (hok : pollsOnly s a) (hstep : CallStep s a t) :
    Watched willWake t := by
  cases hstep with
  | send v pc | dropTx pc =>
    have hstage : s.tx.stage = .unlocked := by rw [pc]; rfl
    exact {
      nonblocking := h.nonblocking
      context := h.context
      idle := h.idle
      signalled := fun hr hsome => .of_unlocked rfl ((h.signalled hr hsome).state_eq hstage)
      quiet := fun _ _ => nofun }
  | tryRecv pc =>
    exact {
      nonblocking := rfl
      context := nofun
      idle := fun _ _ _ => h.idle (by rw [pc]; rfl) (by rw [pc]; rfl) (by rw [pc]; rfl)
      signalled := fun _ => h.signalled (by rw [pc]; rfl)
      quiet := by rintro c (hc | hc) <;> cases hc }
  | poll k pc =>
    exact {
      nonblocking := rfl
      context := fun _ hk => hk
      idle := nofun
      signalled := fun _ => h.signalled (by rw [pc]; rfl)
      quiet := by rintro c (hc | hc) <;> cases hc }
  | recv d pc => exact hok.elim
  | dropRx pc | dropNone pc => exact .of_left rfl rfl rfl fun _ => ⟨nofun, nofun⟩
  | none a polled consumes pc =>
    cases consumes
    all_goals exact .of_left rfl rfl rfl fun _ => ⟨nofun, nofun⟩

/-- **The invariant holds if the receiver never blocks.** -/
theorem watched_of_reach (hrefl : ∀ k, willWake k k = true)
    (hs : Reach (system willWake) pollsOnly s) : Watched willWake s := by
  induction hs with
  | init hs =>
    cases hs
    exact watched_new willWake
  | step a hreach hok hstep ih =>
    have hinv := inv_of_reach hreach
    rcases step_cases willWake hstep with ⟨_, _, htx⟩ | ⟨_, _, hrx⟩ | hcall
    · exact ih.tx hinv (rxWord_of_reach hreach) htx
    · exact ih.rx hrefl hinv hrx
    · exact ih.call hok hcall

/-- In a run without blocking calls, once the sender's operation is over, a live receiver that has
polled, so that its last poll returned `Pending`, has been woken after the last write of the slot,
through a waker equivalent to the one of that poll. And the slot is never written while the sender
may be reading it. -/
theorem latest_waker_woken {willWake : κ → κ → Bool} {s : St τ κ}
    (hrefl : ∀ k, willWake k k = true) (hs : Reach (system willWake) pollsOnly s) :
    (∀ k, s.tx.holds = false → s.rx = .idle true → s.polled = some k →
        ∃ old, willWake old k = true ∧ (s.stores, .async old) ∈ s.woken) ∧
      ∀ c exist w, s.rx = .setWaker c → s.tx ≠ .readWaker exist ∧ s.tx ≠ .wake exist w := by
  have h := watched_of_reach hrefl hs
  have hinv := inv_of_reach hs
  refine ⟨fun k htx hrx hk => ?_, fun c exist w hrx => ?_⟩
  · rcases h.idle (by rw [hrx]; rfl) (by rw [hrx]; rfl) (by rw [hrx]; rfl) with hnone | hsome
    · rw [hnone] at hk
      cases hk
    obtain ⟨k', old, hk', hslot, hsame⟩ := hsome
    obtain rfl : k' = k := Option.some.inj (hk'.symm.trans hk)
    have hsignal := h.signalled (by rw [hrx]; rfl) (by rw [hslot]; nofun)
    unfold Signalled at hsignal
    rw [hinv.tx_eq_gone htx] at hsignal
    obtain ⟨w, hw, hmem⟩ := hsignal
    rw [hslot] at hw
    cases hw
    exact ⟨old, hsame, hmem⟩
  · have hquiet := h.quiet c (.inl hrx) exist
    refine ⟨fun pc => hquiet ?_, fun pc => hquiet ?_⟩
    all_goals
      rw [pc]
      rfl

/-- Two polls with different wakers, then the sender is dropped: the second waker is woken. -/
theorem latest_waker_woken_second :
    ∃ s : St Nat Nat, Reach (system fun a b => a == b) pollsOnly s ∧ s.rx = .idle true ∧
      s.polled = some 2 ∧ ∃ old : Nat, (old == 2) = true ∧ (s.stores, .async old) ∈ s.woken := by
  have hnew : Reach (system fun a b : Nat => a == b) pollsOnly (St.new : St Nat Nat) := .init rfl
  obtain ⟨s, hs, htx, hrx, hk⟩ := hnew.exists_of_run
    [.poll 1, .stepRx false, .stepRx false, .stepRx false, .poll 2, .stepRx false, .stepRx false,
      .stepRx false, .stepRx false, .stepRx false, .dropTx, .stepTx false, .stepTx false,
      .stepTx false, .stepTx false, .stepTx false]
    (fun s => s.tx.holds = false ∧ s.rx = .idle true ∧ s.polled = some 2) (by decide)
  exact ⟨s, hs, hrx, hk, (latest_waker_woken (fun k => beq_self_eq_true k) hs).1 2 htx hrx hk⟩

end Crossfire.Oneshot
