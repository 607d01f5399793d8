import Crossfire.WaitGroup.Memory

/-!
# The wait group never loses the waiter's wake-up

One waiter with threshold `T` (its own reference counted in), guards whose thresholds are at least
`T`. From its last check on, the waiter is covered: its latest registration has been woken, or some
guard has it in hand on the way to waking it, or it sits in the slot under the waker flag with the
count above `T`. A decrement cannot leave the last case at or below `T` without taking the waker,
because every guard's threshold is at least `T`.

`no_lost_wake` reads this off in the states in which no `done` is in progress.
-/

set_option autoImplicit false

namespace Crossfire.WaitGroup

open Lib.Interleaving Lib.FlagWord Function

variable {ι κ : Type}

/-- The runs of one waiter with threshold `T` and guards with thresholds at least `T`: no deadline,
no future while a blocking wait runs, no end of the wait group and no overflow. -/
def waitOnly (b T : Nat) (s : St ι κ) : Act ι κ → Prop
  | .addGuard _ => overflows b s.state = false ∧ T ≤ s.threshold
  | .clone _ _ => overflows b s.state = false
  | .wait deadline => deadline = false ∧ s.threshold = T ∧ s.future = none
  | .waitAsync => s.threshold = T
  | .tryIntoInner | .drop => False
  | _ => True

/-- The guard is inside `done`. -/
def GuardPc.inDone : GuardPc κ → Bool
  | .absent | .alive _ | .gone | .panicked => false
  | _ => true

/-- The waiter is parked, or its last poll returned `Pending`. -/
def St.waiting (s : St ι κ) : Bool :=
  match s.owner with
  | .park _ _ => true
  | .idle => s.pending
  | _ => false

/-! ## The invariant -/

/-- The slot holds registration `n`. -/
def Tagged (n : Nat) (slot : Slot κ) : Prop := slot.map Prod.fst = some n

/-- The guard has registration `n` in hand; `slot` is the slot of the block. -/
def GuardPc.carries (n : Nat) (slot : Slot κ) : GuardPc κ → Prop
  | .takeSlot => Tagged n slot
  | .unlock waker => Tagged n waker
  | .wake number _ => number = n
  | _ => False

/-- The guard knows a threshold of at least `T`. -/
def GuardPc.above (T : Nat) : GuardPc κ → Prop
  | .alive T' | .load T' | .recheck T' _ | .cas T' _ => T ≤ T'
  | _ => True

/-- A wait for `T` without a deadline. -/
def Wait.plain (T : Nat) : Wait κ → Prop
  | .block T' deadline _ => T' = T ∧ deadline = false
  | .poll T' _ => T' = T

/-- The owner is not inside a call, or it waits with threshold `T` and without a deadline. -/
def OwnerPc.plain (T : Nat) : OwnerPc κ → Prop
  | .idle => True
  | .check T' d _ _ | .deadline T' d | .park T' d => T' = T ∧ d = false
  | .pollLoad T' _ | .pollCheck T' _ => T' = T
  | .setLoad w | .setLock w _ | .setReplace w | .setXor w | .setFresh w | .setOr w => w.plain T
  | _ => False

/-- The owner has put its waker into the slot and not yet set the flag. -/
def OwnerPc.wrote : OwnerPc κ → Bool
  | .setXor _ | .setOr _ => true
  | _ => false

/-- The owner will register no more before it waits. -/
def St.committed (s : St ι κ) : Bool :=
  match s.owner with
  | .deadline _ _ | .park _ _ | .pollCheck _ _ => true
  | .idle => s.pending
  | _ => false

/-- The latest registration was woken, is on its way to be woken, or waits for a count that is still
above the threshold. -/
inductive Cover (b T : Nat) (s : St ι κ) : Prop
  | woken (h : s.registered ∈ s.woken)
  | carried (i : ι) (h : (s.guard i).carries s.registered s.slot)
  | set (waker : hasWaker b s.state = true) (tag : Tagged s.registered s.slot)
      (above : T < count b s.state)

/-- A step that touches nothing of this. -/
theorem Cover.congr {b T : Nat} {s t : St ι κ} (h : Cover b T s)
    (hregistered : t.registered = s.registered) (hwoken : t.woken = s.woken)
    (hguard : t.guard = s.guard) (hslot : t.slot = s.slot) (hstate : t.state = s.state) :
    Cover b T t := by
  cases h with
  | woken hmem => exact .woken (by rw [hregistered, hwoken]; exact hmem)
  | carried i hi => exact .carried i (by rw [hguard, hregistered, hslot]; exact hi)
  | set waker tag above =>
    exact .set (by rw [hstate]; exact waker) (by rw [hregistered, hslot]; exact tag)
      (by rw [hstate]; exact above)

/-- Everybody waits for `T`, and no wakeup is missing. -/
structure Watch (b T : Nat) (s : St ι κ) : Prop where
  owner : s.owner.plain T
  future : ∀ T' o, s.future = some (T', o) → T' = T
  guard : ∀ i, (s.guard i).above T
  slot : hasWaker b s.state = true ∨ s.owner.wrote = true → Tagged s.registered s.slot
  cover : s.committed = true → Cover b T s
  answer : ∀ c, s.answer = some (.ready, c) → c ≤ T

theorem Watch.owner_ref {b T : Nat} {s : St ι κ} (h : Watch b T s) : s.owner.ref = 1 := by
  have := h.owner
  cases hpc : s.owner <;> first | rfl | (rw [hpc] at this; exact this.elim)

/-! ## Steps of the owner -/

section Owner

variable {b T : Nat} {s : St ι κ}

variable {w : Wait κ}

theorem OwnerPc.setting_plain {pc : OwnerPc κ} (hset : pc.setting w)
    (h : pc.plain T) : w.plain T := by
  cases pc with
  | setLoad _ | setLock _ _ => exact hset ▸ h
  | _ => exact hset.elim

theorem Wait.threshold_of_plain (h : w.plain T) : w.threshold = T := by
  cases w with
  | block => exact h.1
  | poll => exact h

/-- A step of the owner that changes only its program counter. -/
theorem Watch.of_move (h : Watch b T s) {pc : OwnerPc κ} (hplain : pc.plain T)
    (hwrote : pc.wrote = false)
    (hcover : ({ s with owner := pc } : St ι κ).committed = true → Cover b T s) :
    Watch b T { s with owner := pc } := by
  refine ⟨hplain, h.future, h.guard, fun hw => ?_,
    fun hc => (hcover hc).congr rfl rfl rfl rfl rfl, h.answer⟩
  rcases hw with hw | hw
  · exact h.slot (.inl hw)
  · rw [hwrote] at hw
    cases hw

/-- The owner goes on. -/
theorem Watch.ownerMove (h : Watch b T s) {pc : OwnerPc κ} (hmove : OwnerMove b s pc) :
    Watch b T { s with owner := pc } := by
  have hplain := h.owner
  cases hmove with
  | checkSet T' d w pc | checkAgain T' d w r r' pc | parkReturn T' d r pc | pollSet T' k pc =>
    rw [pc] at hplain
    exact h.of_move hplain rfl nofun
  | pollCheck T' k pc above waker =>
    rw [pc] at hplain
    obtain rfl : T' = T := hplain
    exact h.of_move rfl rfl fun _ => .set waker (h.slot (.inl waker)) above
  | setSpin w pc | setLock w pc | setFresh w pc =>
    exact h.of_move (OwnerPc.setting_plain pc hplain) rfl nofun
  | park T' d pc =>
    rw [pc] at hplain
    exact h.of_move hplain rfl fun _ => h.cover (by rw [St.committed, pc])
  | intoOk pc | intoErr pc =>
    rw [pc] at hplain
    exact hplain.elim
  | destroy pc | destroyLast pc =>
    cases hpc : s.owner with
    | destroyLoad | destroyCas _ =>
      rw [hpc] at hplain
      exact hplain.elim
    | _ => rw [hpc] at pc; exact pc.elim

/-- A wait returns. -/
theorem Watch.of_ret (h : Watch b T s) {r : WaitRes}
    (hready : r = .ready → count b s.state ≤ T) (hpending : r = .pending → Cover b T s) :
    Watch b T (s.ret b r) := by
  refine ⟨trivial, h.future, h.guard, fun hw => ?_, fun hc => ?_, fun c hc => ?_⟩
  · rcases hw with hw | hw
    · exact h.slot (.inl hw)
    · cases hw
  · exact (hpending (of_decide_eq_true hc)).congr rfl rfl rfl rfl rfl
  · simp only [St.ret, Option.some.injEq, Prod.mk.injEq] at hc
    exact hc.2 ▸ hready hc.1

/-- A wait returns. -/
theorem Watch.ownerRet (h : Watch b T s) {r : WaitRes} (hret : OwnerRet b s r) :
    Watch b T (s.ret b r) := by
  have hplain := h.owner
  cases hret with
  | check T' d w r pc below =>
    rw [pc] at hplain
    exact h.of_ret (fun _ => hplain.1 ▸ below) nofun
  | pollLoad T' k pc below | pollCheck T' k pc below =>
    rw [pc] at hplain
    exact h.of_ret (fun _ => (show T' = T from hplain) ▸ below) nofun
  | pollPending T' k pc => exact h.of_ret nofun fun _ => h.cover (by rw [St.committed, pc])
  | set w pc below =>
    have := Wait.threshold_of_plain (OwnerPc.setting_plain pc hplain)
    exact h.of_ret (fun _ => this ▸ below) nofun
  | timeout T' pc =>
    rw [pc] at hplain
    cases hplain.2

/-- `try_set_waker` returned `Ok` on a word with the waker flag and a count above the threshold. -/
theorem Watch.of_setOk (h : Watch b T s) (hplain : w.plain T) {new : Nat}
    (waker : hasWaker b new = true) (tag : Tagged s.registered s.slot) (above : T < count b new) :
    Watch b T { s.setOk b w with state := new } := by
  cases w with
  | block T' d skip =>
    exact ⟨hplain, h.future, h.guard, fun _ => tag, fun _ => .set waker tag above, h.answer⟩
  | poll T' k =>
    refine ⟨trivial, fun T'' o ho => ?_, h.guard, fun _ => tag, fun _ => .set waker tag above,
      fun c hc => ?_⟩
    · cases ho
      exact hplain
    · cases hc

/-- The end of `try_set_waker`, which writes the waker flag. -/
theorem Watch.of_finish (h : Watch b T s) (hplain : w.plain T)
    (hwrote : s.owner.wrote = true) {new : Nat} (waker : hasWaker b new = true)
    (hcount : count b new = count b s.state) : Watch b T (setFinish b s w new) := by
  have tag := h.slot (.inr hwrote)
  have hT := Wait.threshold_of_plain hplain
  unfold setFinish
  split_ifs with hbelow
  · refine ⟨trivial, h.future, h.guard, fun _ => tag, nofun, fun c hc => ?_⟩
    simp only [St.ret, Option.some.injEq, Prod.mk.injEq] at hc
    omega
  · exact h.of_setOk hplain waker tag (by omega)

variable [Fintype ι]

/-- **A step of the owner keeps the watch.** -/
theorem Watch.owner_step (h : Watch b T s) (hinv : Inv b s) {t : St ι κ}
    (hstep : OwnerStep b s t) : Watch b T t := by
  have hplain := h.owner
  obtain ⟨f, hs, hclear⟩ := hinv.word_of_owner h.owner_ref
  cases hstep with
  | move pc hmove => exact h.ownerMove hmove
  | ret r hret => exact h.ownerRet hret
  | skip w pc above waker may =>
    have hw := OwnerPc.setting_plain pc hplain
    have := Wait.threshold_of_plain hw
    have hstate := (setOk_frame (b := b) s w).2.1
    have := h.of_setOk hw waker (h.slot (.inl waker)) (by omega)
    rw [← hstate] at this
    exact this
  | lock w pc =>
    rw [pc] at hplain
    refine ⟨hplain, h.future, h.guard, fun hw => ?_, nofun, h.answer⟩
    rcases hw with hw | hw
    · -- the word is locked now
      change hasWaker b (tryLock b s.state) = true at hw
      rw [hs.state, tryLock_pack hs.lt, hasWaker_pack hs.lt] at hw
      cases hw
    · cases hw
  | replace w pc | fresh w pc =>
    rw [pc] at hplain
    exact ⟨hplain, h.future, h.guard, fun _ => rfl, nofun, h.answer⟩
  | xor w pc =>
    rw [pc] at hplain
    -- the owner itself holds the lock
    have hlock : f = .lock := by
      by_contra hne
      have hlocks := hs.locks
      rw [if_neg hne, St.locks, pc] at hlocks
      simp [OwnerPc.lock] at hlocks
    have hnew : s.state ^^^ wakerFlagMask b = pack b .set s.refs := by
      rw [hs.state, hlock, xor_mask_pack hs.lt]
    refine h.of_finish hplain (by rw [pc]; rfl) ?_ ?_
    · rw [hnew, hasWaker_pack hs.lt]
      rfl
    · rw [hnew, count_pack hs.lt, hs.count]
  | or w pc =>
    rw [pc] at hplain
    have hnew : s.state ||| wakerFlagSet b = pack b .set s.refs := by
      rw [hs.state, hclear (by rw [pc]; rfl), or_set_pack hs.lt]
    refine h.of_finish hplain (by rw [pc]; rfl) ?_ ?_
    · rw [hnew, hasWaker_pack hs.lt]
      rfl
    · rw [hnew, count_pack hs.lt, hs.count]
  -- a waiting owner does not free
  | intoFree pc | destroyCas pc | destroyFree pc =>
    rw [pc] at hplain
    exact hplain.elim

end Owner

/-! ## Steps of a guard -/

section Guard

variable [DecidableEq ι] {b T : Nat} {s t : St ι κ} {i : ι} {pc : GuardPc κ}

/-- What a step of guard `i` must show to keep the waiter covered. -/
theorem Cover.of_guard {state : Nat} {slot : Slot κ} {woken : List Nat} {frees : Nat}
    (h : Cover b T s) (hwoken : ∀ n ∈ s.woken, n ∈ woken)
    (hcarried : (s.guard i).carries s.registered s.slot →
      pc.carries s.registered slot ∨ s.registered ∈ woken)
    (hothers : ∀ j, j ≠ i → (s.guard j).carries s.registered s.slot →
      (s.guard j).carries s.registered slot)
    (hset : hasWaker b s.state = true → Tagged s.registered s.slot → T < count b s.state →
      pc.carries s.registered slot ∨
        hasWaker b state = true ∧ Tagged s.registered slot ∧ T < count b state) :
    Cover b T (({ s with state, slot, woken, frees } : St ι κ).setGuard i pc) := by
  have hself : pc.carries s.registered slot →
      Cover b T (({ s with state, slot, woken, frees } : St ι κ).setGuard i pc) := by
    intro hpc
    refine .carried i ?_
    simp only [St.setGuard, update_self]
    exact hpc
  cases h with
  | woken hmem => exact .woken (hwoken _ hmem)
  | carried j hj =>
    by_cases hji : j = i
    · subst hji
      rcases hcarried hj with hpc | hmem
      · exact hself hpc
      · exact .woken hmem
    · refine .carried j ?_
      simp only [St.setGuard, update_of_ne hji]
      exact hothers j hji hj
  | set waker tag above =>
    rcases hset waker tag above with hpc | ⟨waker', tag', above'⟩
    · exact hself hpc
    · exact .set waker' tag' above'

/-- A guard goes on. -/
theorem Watch.of_guard {state : Nat} {slot : Slot κ} {woken : List Nat} {frees : Nat}
    (h : Watch b T s) (habove : pc.above T)
    (hslot : hasWaker b state = true ∨ s.owner.wrote = true → Tagged s.registered slot)
    (hcover : Cover b T s →
      Cover b T (({ s with state, slot, woken, frees } : St ι κ).setGuard i pc)) :
    Watch b T (({ s with state, slot, woken, frees } : St ι κ).setGuard i pc) := by
  refine ⟨h.owner, h.future, fun j => ?_, hslot, fun hc => hcover (h.cover hc), h.answer⟩
  simp only [St.setGuard, update_apply]
  split_ifs
  · exact habove
  · exact h.guard j

/-- A step that only moves the program counter of a guard with nothing in hand. -/
theorem Watch.of_guardMove (h : Watch b T s) (habove : pc.above T)
    (hold : ¬ (s.guard i).carries s.registered s.slot) : Watch b T (s.setGuard i pc) :=
  h.of_guard habove h.slot fun hcover => hcover.of_guard (fun _ => id)
    (fun hi => absurd hi hold) (fun _ _ => id) fun waker tag above => .inr ⟨waker, tag, above⟩

/-- A new guard. -/
theorem Watch.of_join [Fintype ι] (h : Watch b T s) (hinv : Inv b s) {T' : Nat}
    (hpc : s.guard i = .absent) (habove : T ≤ T') (hfits : overflows b s.state = false) :
    Watch b T (({ s with state := fetchAdd b s.state 1 } : St ι κ).setGuard i (.alive T')) := by
  obtain ⟨f, hs, _⟩ := hinv.word_of_owner h.owner_ref
  have hlt : s.refs + 1 < 2 ^ b := by
    simp only [overflows, decide_eq_false_iff_not, hs.count, countMask_eq] at hfits
    omega
  have hnew : fetchAdd b s.state 1 = pack b f (s.refs + 1) := by rw [hs.state, fetchAdd_pack hlt]
  have hwaker : hasWaker b (fetchAdd b s.state 1) = hasWaker b s.state := by
    rw [hnew, hasWaker_pack hlt, hs.hasWaker]
  refine h.of_guard habove (by rw [hwaker]; exact h.slot) fun hcover =>
    hcover.of_guard (fun _ => id) ?_ (fun _ _ => id) fun waker tag above => .inr ⟨?_, tag, ?_⟩
  · rw [hpc]
    exact False.elim
  · rw [hwaker]
    exact waker
  · rw [hs.count] at above
    rw [hnew, count_pack hlt]
    omega

theorem GuardPc.finishing_above {pc : GuardPc κ} {T' : Nat} (hfin : pc.finishing T')
    (h : pc.above T) : T ≤ T' := by
  cases pc with
  | load _ | recheck _ _ | cas _ _ => exact hfin ▸ h
  | _ => exact hfin.elim

theorem GuardPc.not_carries_of_finishing {pc : GuardPc κ} {T' n : Nat} {slot : Slot κ}
    (hfin : pc.finishing T') : ¬ pc.carries n slot := by
  cases pc with
  | load _ | recheck _ _ | cas _ _ => exact id
  | _ => exact hfin.elim

variable [Fintype ι]

omit [DecidableEq ι] in
/-- While a guard holds the lock the owner is not in the middle of a registration. -/
theorem Inv.not_wrote_of_guard (hinv : Inv b s) (hlock : (s.guard i).lock = 1) :
    s.owner.wrote = false := by
  obtain ⟨hs, hown, -, -⟩ := hinv.locked_of_guard hlock
  cases hpc : s.owner with
  | setXor w =>
    rw [hpc] at hown
    cases hown
  | setOr w =>
    obtain ⟨f, hf, hclear⟩ := hinv.word_of_owner (by rw [hpc]; rfl)
    obtain rfl := hclear (by rw [hpc]; rfl)
    have heq := hf.state.symm.trans hs.state
    exact absurd (pack_inj hf.lt hs.lt heq).1 nofun
  | _ => rfl

/-- The decrement that takes the lock takes the waker in hand. -/
theorem Watch.of_lock (h : Watch b T s) (hinv : Inv b s) {T' new : Nat}
    (hpc : s.guard i = .cas T' s.state) (hdone : tryDone b s.state 1 T' = some (true, new)) :
    Watch b T (({ s with state := new } : St ι κ).setGuard i .takeSlot) := by
  obtain ⟨f, hs, _⟩ := hinv.word_of_owner h.owner_ref
  have hpos := refs_pos_of_owner h.owner_ref
  rcases hs.tryDone_cases hpos T' with ⟨_, rfl, hd⟩ | ⟨_, hd⟩
  · rw [hdone] at hd
    cases hd
    have hlt : s.refs - 1 < 2 ^ b := by
      have := hs.lt
      omega
    refine h.of_guard trivial (fun hw => ?_) fun hcover =>
      hcover.of_guard (fun _ => id) ?_ (fun _ _ => id) fun _ tag _ => .inl tag
    · rcases hw with hw | hw
      · rw [hasWaker_pack hlt] at hw
        cases hw
      · exact h.slot (.inr hw)
    · rw [hpc]
      exact False.elim
  · rw [hdone] at hd
    cases hd

/-- The decrement that takes no lock leaves a registered waker only above the threshold. -/
theorem Watch.of_leave (h : Watch b T s) (hinv : Inv b s) {T' new : Nat}
    (hpc : s.guard i = .cas T' s.state) (hdone : tryDone b s.state 1 T' = some (false, new)) :
    Watch b T (({ s with state := new } : St ι κ).setGuard i .gone) := by
  have habove : T ≤ T' := by
    have := h.guard i
    rw [hpc] at this
    exact this
  obtain ⟨f, hs, _⟩ := hinv.word_of_owner h.owner_ref
  have hpos := refs_pos_of_owner h.owner_ref
  rcases hs.tryDone_cases hpos T' with ⟨_, _, hd⟩ | ⟨hnot, hd⟩
  · rw [hdone] at hd
    cases hd
  · rw [hdone] at hd
    cases hd
    have hlt : s.refs - 1 < 2 ^ b := by
      have := hs.lt
      omega
    have hwaker : hasWaker b (pack b f (s.refs - 1)) = hasWaker b s.state := by
      rw [hasWaker_pack hlt, hs.hasWaker]
    refine h.of_guard trivial (by rw [hwaker]; exact h.slot) fun hcover =>
      hcover.of_guard (fun _ => id) ?_ (fun _ _ => id) fun waker tag _ => .inr ⟨?_, tag, ?_⟩
    · rw [hpc]
      exact False.elim
    · rw [hwaker]
      exact waker
    · rw [hs.hasWaker, decide_eq_true_eq] at waker
      rw [count_pack hlt]
      have : ¬ s.refs - 1 ≤ T' := fun hle => hnot ⟨hle, waker⟩
      omega

/-- The lock holder takes the waker out of the slot. -/
theorem Watch.of_take (h : Watch b T s) (hinv : Inv b s) (hpc : s.guard i = .takeSlot) :
    Watch b T (({ s with slot := none } : St ι κ).setGuard i (.unlock s.slot)) := by
  have hlock : (s.guard i).lock = 1 := by rw [hpc]; rfl
  obtain ⟨hs, -, hone, -⟩ := hinv.locked_of_guard hlock
  have hwaker : hasWaker b s.state = false := hs.hasWaker
  refine h.of_guard trivial (fun hw => ?_) fun hcover =>
    hcover.of_guard (fun _ => id) ?_ (fun j hj => ?_) fun waker => ?_
  · rw [hwaker, hinv.not_wrote_of_guard hlock] at hw
    rcases hw with hw | hw <;> cases hw
  · rw [hpc]
    exact .inl
  · -- no other guard is about to take the slot: there is one lock holder
    have hle := weight_add_weight_le_sum GuardPc.lock s.guard hj
    cases hpcj : s.guard j with
    | takeSlot =>
      rw [hpcj, hlock] at hle
      change 1 + 1 ≤ s.guardLocks at hle
      omega
    | unlock w | wake n w => exact id
    | _ => exact False.elim
  · rw [hwaker] at waker
    cases waker

theorem carries_afterUnlock {n : Nat} {slot w : Slot κ} (h : Tagged n w) :
    (afterUnlock w).carries n slot := by
  rcases w with _ | ⟨number, waker⟩
  · cases h
  · exact Option.some.inj h

/-- A guard unlocks. -/
theorem Watch.of_unlock (h : Watch b T s) (hinv : Inv b s) {w : Slot κ}
    (hpc : s.guard i = .unlock w) :
    Watch b T
      (({ s with state := s.state &&& countMask b } : St ι κ).setGuard i (afterUnlock w)) := by
  have hlock : (s.guard i).lock = 1 := by rw [hpc]; rfl
  obtain ⟨hs, -, -, -⟩ := hinv.locked_of_guard hlock
  have habove : (afterUnlock w).above T := by
    rcases w with _ | ⟨number, waker⟩ <;> trivial
  refine h.of_guard habove (fun hw => ?_) fun hcover =>
    hcover.of_guard (fun _ => id) ?_ (fun _ _ => id) fun waker => ?_
  · rw [hs.state, and_countMask_pack hs.lt, hasWaker_pack hs.lt,
      hinv.not_wrote_of_guard hlock] at hw
    rcases hw with hw | hw <;> cases hw
  · rw [hpc]
    exact fun htag => .inl (carries_afterUnlock htag)
  · rw [hs.hasWaker] at waker
    cases waker

/-- **A step of a guard keeps the watch.** -/
theorem Watch.guard_step (h : Watch b T s) (hinv : Inv b s) (hstep : GuardStep b s i t) :
    Watch b T t := by
  have hnext := hinv.guard_step hstep
  cases hstep with
  | last T' pc | more T' pc =>
    exact h.of_guardMove (GuardPc.finishing_above pc (h.guard i))
      (GuardPc.not_carries_of_finishing pc)
  | underflow T' pc =>
    have := hnext.guard i
    simp [St.setGuard, GuardKnows] at this
  | confirmed T' pc | unlockLast w pc =>
    -- the owner still has its reference
    have := hnext.not_freeing_of_owner h.owner_ref i
    simp [St.setGuard, GuardPc.freeing] at this
  | lock T' new pc word => exact h.of_lock hinv pc word
  | leave T' new pc word => exact h.of_leave hinv pc word
  | take pc => exact h.of_take hinv pc
  | unlock w pc => exact h.of_unlock hinv pc
  | wake number w pc =>
    refine h.of_guard trivial h.slot fun hcover =>
      hcover.of_guard (fun _ => List.mem_cons_of_mem _) ?_ (fun _ _ => id)
        fun waker tag above => .inr ⟨waker, tag, above⟩
    rw [pc]
    exact fun heq => .inr (heq ▸ List.mem_cons_self)
  | free counted pc =>
    have := hinv.not_freeing_of_owner h.owner_ref i
    rw [pc] at this
    cases this

/-! ## Calls and whole runs -/

/-- The start of a call. -/
theorem Watch.call (h : Watch b T s) (hinv : Inv b s) {a : Act ι κ} (hok : waitOnly b T s a)
    (hstep : CallStep b s a t) : Watch b T t := by
  cases hstep with
  | addGuard j pc slot fits => exact h.of_join hinv slot hok.2 fits
  | clone j k T' source slot fits =>
    have habove := h.guard j
    rw [source] at habove
    exact h.of_join hinv slot habove fits
  | addPanic j pc overflow =>
    rw [hok.1] at overflow
    cases overflow
  | clonePanic j k T' source overflow =>
    rw [show overflows b s.state = false from hok] at overflow
    cases overflow
  | dropGuard j T' pc =>
    have habove := h.guard j
    rw [pc] at habove
    exact h.of_guardMove habove (by rw [pc]; exact id)
  | setThreshold T' pc =>
    exact ⟨h.owner, h.future, h.guard, h.slot,
      fun hc => (h.cover hc).congr rfl rfl rfl rfl rfl, h.answer⟩
  | wait d pc =>
    exact ⟨⟨hok.2.1, hok.1⟩, h.future, h.guard, fun hw => h.slot (.inl (hw.resolve_right nofun)),
      nofun, h.answer⟩
  | waitAsync pc =>
    refine ⟨h.owner, fun T' o ho => ?_, h.guard, h.slot, fun hc => ?_, h.answer⟩
    · cases ho
      exact hok
    · rw [St.committed, pc] at hc
      cases hc
  | poll k T' o pc future =>
    exact ⟨h.future T' o future, h.future, h.guard,
      fun hw => h.slot (.inl (hw.resolve_right nofun)), nofun, h.answer⟩
  | dropFuture pc =>
    refine ⟨h.owner, nofun, h.guard, h.slot, fun hc => ?_, h.answer⟩
    rw [St.committed, pc] at hc
    cases hc
  | tryIntoInner pc | drop pc => exact hok.elim

/-- **The watch is kept in every run.** -/
theorem watch_of_reach (hb : 1 ≤ b) {willWake : κ → κ → Bool}
    (hs : Reach (system b willWake) (waitOnly b T) s) : Inv b s ∧ Watch b T s := by
  refine hs.invariant (P := fun s => Inv b s ∧ Watch b T s) ?_ ?_
  · rintro _ ⟨T₀, rfl⟩
    have hinv : Inv b (St.new T₀ : St ι κ) := inv_new hb T₀
    refine ⟨hinv, trivial, nofun, fun _ => trivial, fun hw => ?_, nofun, nofun⟩
    have hnone : hasWaker b (pack b .clear 1) = false :=
      hasWaker_pack (Nat.one_lt_two_pow (by omega))
    rw [show pack b .clear 1 = 1 from rfl] at hnone
    rcases hw with hw | hw
    · rw [show (St.new T₀ : St ι κ).state = 1 from rfl, hnone] at hw
      cases hw
    · cases hw
  · rintro s a t ⟨hinv, h⟩ hok hstep
    rcases step_cases b willWake hstep with ⟨c, rfl, hown⟩ | ⟨j, c, rfl, hguard⟩ | hcall
    · refine ⟨hinv.owner_step ?_ hown, h.owner_step hinv hown⟩
      rintro ⟨hpc, -⟩
      have := h.owner
      rw [hpc] at this
      exact this
    · exact ⟨hinv.guard_step hguard, h.guard_step hinv hguard⟩
    · refine ⟨hinv.call ?_ hcall, h.call hinv hok hcall⟩
      cases a with
      | addGuard => exact hok.1
      | clone => exact hok
      | _ => trivial

end Guard

/-! ## No lost wake-up -/

instance (b T : Nat) (s : St ι κ) [DecidableEq κ] : (a : Act ι κ) → Decidable (waitOnly b T s a)
  | .addGuard _ => inferInstanceAs (Decidable (overflows b s.state = false ∧ T ≤ s.threshold))
  | .clone _ _ => inferInstanceAs (Decidable (overflows b s.state = false))
  | .wait d => inferInstanceAs (Decidable (d = false ∧ s.threshold = T ∧ s.future = none))
  | .waitAsync => inferInstanceAs (Decidable (s.threshold = T))
  | .tryIntoInner | .drop => inferInstanceAs (Decidable False)
  | .setThreshold _ | .poll _ | .dropFuture | .stepOwner _ | .dropGuard _ | .stepGuard _ _ =>
    inferInstanceAs (Decidable True)

theorem GuardPc.inDone_of_carries {pc : GuardPc κ} {n : Nat} {slot : Slot κ}
    (h : pc.carries n slot) : pc.inDone = true := by
  cases pc with
  | takeSlot | unlock _ | wake _ _ => rfl
  | _ => exact h.elim

/-- With no `done` in progress, a waiter that is parked or pending and whose latest registration has
not been woken waits for a count above its threshold; and a wait returns `Ok` or `Ready` only on a
count at or below the threshold, read by its last atomic operation. -/
theorem no_lost_wake [Fintype ι] [DecidableEq ι] {b T : Nat} (hb : 1 ≤ b)
    {willWake : κ → κ → Bool} {s : St ι κ} (hs : Reach (system b willWake) (waitOnly b T) s) :
    ((∀ i, (s.guard i).inDone = false) → s.waiting = true → s.registered ∉ s.woken →
        T < count b s.state) ∧
      ∀ c, s.answer = some (.ready, c) → c ≤ T := by
  have h := (watch_of_reach hb hs).2
  refine ⟨fun hdone hwaiting hwoken => ?_, h.answer⟩
  have hcommitted : s.committed = true := by
    unfold St.waiting at hwaiting
    unfold St.committed
    split at hwaiting <;> simp_all
  cases h.cover hcommitted with
  | woken hmem => exact absurd hmem hwoken
  | carried i hi =>
    have := GuardPc.inDone_of_carries hi
    rw [hdone i] at this
    cases this
  | set _ _ above => exact above

/-- Two guards; the first `done` is over, the waiter is parked and the second guard is alive. -/
theorem no_lost_wake_parked :
    ∃ s : St (Fin 2) Nat, Reach (system 62 (· == ·)) (waitOnly 62 1) s ∧ s.waiting = true ∧
      s.guard 0 = .gone ∧ 1 < count 62 s.state := by
  have hnew : Reach (system 62 (· == ·)) (waitOnly 62 1) (St.new 0 : St (Fin 2) Nat) :=
    .init ⟨0, rfl⟩
  obtain ⟨s, hs, hwaiting, hgone, hdone, hwoken⟩ := hnew.exists_of_run
    [.addGuard 0, .clone 0 1, .wait false, .stepOwner true, .stepOwner false, .stepOwner false,
      .stepOwner false, .dropGuard 0, .stepGuard 0 false, .stepOwner false, .stepOwner false,
      .stepGuard 0 false, .stepGuard 0 false]
    (fun s => s.waiting = true ∧ s.guard 0 = .gone ∧ (∀ i, (s.guard i).inDone = false) ∧
      s.registered ∉ s.woken) (by decide +kernel)
  exact ⟨s, hs, hwaiting, hgone, (no_lost_wake (by omega) hs).1 hdone hwaiting hwoken⟩

end Crossfire.WaitGroup
