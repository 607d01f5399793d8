import Crossfire.WaitGroup.Inline
import Crossfire.WaitGroup.Lifetime

/-!
# The count in the word of a wait group

Count and waker flag share one word. `add` is a `fetch_add` on the whole word that looks at the old
count only, and only after it has added: two large amounts run over into the flag bits without a
panic (`add_many_overruns`). Decrements rebuild the word from its masked parts.

`count_exact` says that the count bits are the balance of all amounts, and that additions and
decrements leave the flag alone except for the lock a decrement takes, in the runs in which no
addition overruns the count bits. The runs are those of a `WaitGroupInline` with any amounts and
those of a `WaitGroup` with its guards.
-/

set_option autoImplicit false

namespace Crossfire.WaitGroup

open Lib.Interleaving Lib.FlagWord Function

/-- A decrement keeps the flag, or takes the lock over from a registered waker. -/
def FlagKept (b old new : Nat) : Prop :=
  wakerFlag b new = wakerFlag b old ∨
    (wakerFlag b old = wakerFlagSet b ∧ wakerFlag b new = wakerFlagLock b)

/-- What a step that adds or removes these amounts does to the word. -/
structure Accounts (b old new : Nat) (added removed : Option Nat) : Prop where
  count : count b new + removed.getD 0 = count b old + added.getD 0
  added : added.isSome = true → wakerFlag b new = wakerFlag b old
  removed : removed.isSome = true → FlagKept b old new

section Accounts

variable {b n m delta threshold : Nat} {f g : Flag}

theorem accounts_refl (b old : Nat) : Accounts b old old none none := ⟨rfl, nofun, nofun⟩

/-- A step that changes the flag only. -/
theorem accounts_flag (hn : n < 2 ^ b) : Accounts b (pack b f n) (pack b g n) none none := by
  refine ⟨?_, nofun, nofun⟩
  rw [count_pack hn, count_pack hn]

theorem accounts_add (hn : n + m < 2 ^ b) :
    Accounts b (pack b f n) (pack b f (n + m)) (some m) none := by
  have hlt : n < 2 ^ b := by omega
  refine ⟨?_, fun _ => ?_, nofun⟩
  · rw [count_pack hn, count_pack hlt]
    rfl
  · rw [wakerFlag_pack hn, wakerFlag_pack hlt]

/-- A subtraction is accounted. -/
theorem accounts_sub (hn : n < 2 ^ b) (hm : m ≤ n) (hg : g = f ∨ (f = .set ∧ g = .lock)) :
    Accounts b (pack b f n) (pack b g (n - m)) none (some m) := by
  have hlt : n - m < 2 ^ b := by omega
  refine ⟨?_, nofun, fun _ => ?_⟩
  · rw [count_pack hn, count_pack hlt]
    exact Nat.sub_add_cancel hm
  · rw [FlagKept, wakerFlag_pack hn, wakerFlag_pack hlt]
    rcases hg with rfl | ⟨rfl, rfl⟩
    · exact .inl rfl
    · exact .inr ⟨rfl, rfl⟩

/-- A successful `try_done` on a packed word. -/
theorem tryDone_word {new : Nat} {locks : Bool} (hn : n < 2 ^ b)
    (h : tryDone b (pack b f n) delta threshold = some (locks, new)) :
    delta ≤ n ∧ new = pack b (if locks then .lock else f) (n - delta) ∧
      (locks = true → f = .set) := by
  have hdelta : delta ≤ n := by
    have := (count_tryDone h).1
    rwa [count_pack hn] at this
  rw [tryDone_pack hn hdelta] at h
  split_ifs at h with hlock
  · cases h
    exact ⟨hdelta, rfl, fun _ => hlock.2⟩
  · cases h
    exact ⟨hdelta, rfl, nofun⟩

/-- `try_done` is accounted. -/
theorem accounts_tryDone {new : Nat} {locks : Bool} (hn : n < 2 ^ b)
    (h : tryDone b (pack b f n) delta threshold = some (locks, new)) :
    Accounts b (pack b f n) new none (some delta) := by
  obtain ⟨hdelta, rfl, hset⟩ := tryDone_word hn h
  refine accounts_sub hn hdelta ?_
  cases locks
  · exact .inl rfl
  · exact .inr ⟨hset rfl, rfl⟩

end Accounts

/-! ## Steps of the waiter -/

section Waiter

variable {ι κ : Type} {b n : Nat} {f : Flag} {s t : St ι κ}

/-- What a step of the waiter does to the flag, and whether the waiter holds the lock before and
after. -/
inductive Turns (f : Flag) (lock : Nat) : Flag → Nat → Prop
  | same : Turns f lock f lock
  | lock (set : f = .set) (free : lock = 0) : Turns f lock .lock 1
  | replace (locked : f = .lock) (held : lock = 1) : Turns f lock .set 0
  | set (clear : f = .clear) (free : lock = 0) : Turns f lock .set 0

/-- The word, as the waiter relies on it. -/
structure Relies (b : Nat) (s : St ι κ) (f : Flag) (n : Nat) : Prop where
  state : s.state = pack b f n
  lt : n < 2 ^ b
  lock : s.owner.lock = 1 → f = .lock
  fresh : s.owner.fresh = true → f = .clear
  knows : OwnerKnows b s.owner

/-- What the next state of the waiter is. -/
structure Turned (b : Nat) (s t : St ι κ) (f : Flag) (n : Nat) (g : Flag) : Prop where
  state : t.state = pack b g n
  turns : Turns f s.owner.lock g t.owner.lock
  fresh : t.owner.fresh = true → g = .clear
  knows : OwnerKnows b t.owner

theorem Relies.move (h : Relies b s f n) (hstate : t.state = s.state)
    (hlock : t.owner.lock = s.owner.lock) (hfresh : t.owner.fresh = true → f = .clear)
    (hknows : OwnerKnows b t.owner) : Turned b s t f n f :=
  ⟨hstate.trans h.state, hlock ▸ .same, hfresh, hknows⟩

/-- The waiter goes on. -/
theorem Relies.ownerMove (h : Relies b s f n) {pc : OwnerPc κ} (hmove : OwnerMove b s pc) :
    Turned b s { s with owner := pc } f n f := by
  cases hmove with
  | checkSet T d w pc | checkAgain T d w r r' pc | pollCheck T k pc | pollSet T k pc
  | park T d pc | parkReturn T d r pc | intoErr pc | intoOk pc =>
    exact h.move rfl (by rw [pc]; rfl) nofun trivial
  | setSpin w pc => exact h.move rfl (OwnerPc.setting_spec pc).2.symm nofun trivial
  | setLock w pc above unlocked waker =>
    exact h.move rfl (OwnerPc.setting_spec pc).2.symm nofun waker
  | setFresh w pc above unlocked waker =>
    refine h.move rfl (OwnerPc.setting_spec pc).2.symm (fun _ => ?_) trivial
    rw [h.state, isLocked_pack h.lt, decide_eq_false_iff_not] at unlocked
    rw [h.state, hasWaker_pack h.lt, decide_eq_false_iff_not] at waker
    cases f <;> first | rfl | contradiction
  | destroy pc more => exact h.move rfl (OwnerPc.destroying_spec pc).2.symm nofun more
  | destroyLast pc => exact h.move rfl (OwnerPc.destroying_spec pc).2.symm nofun trivial

/-- Every step of the owner except the decrement of `destroy` keeps the count. -/
theorem Relies.ownerStep (h : Relies b s f n) (hstep : OwnerStep b s t)
    (hcas : s.owner ≠ .destroyCas s.state) : ∃ g, Turned b s t f n g := by
  cases hstep with
  | move pc hmove => exact ⟨f, h.ownerMove hmove⟩
  | ret r hret => exact ⟨f, h.move rfl hret.spec.2.symm nofun trivial⟩
  | skip w pc =>
    have hset := settled_setOk (b := b) s w
    exact ⟨f, h.move (setOk_frame s w).2.1 (hset.lock.trans (OwnerPc.setting_spec pc).2.symm)
      (by rw [hset.fresh]; nofun) hset.knows⟩
  -- the flag changes in `lock`, `xor` and `or` only
  | lock w pc =>
    have hwaker := h.knows
    rw [pc] at hwaker
    obtain rfl : f = .set := by
      have hflag : hasWaker b s.state = true := hwaker
      rw [h.state, hasWaker_pack h.lt] at hflag
      exact of_decide_eq_true hflag
    refine ⟨.lock, ?_, .lock rfl (by rw [pc]; rfl), nofun, trivial⟩
    show tryLock b s.state = _
    rw [h.state, tryLock_pack h.lt]
  | replace _ pc | intoFree pc | destroyFree pc =>
    exact ⟨f, h.move rfl (by rw [pc]; rfl) nofun trivial⟩
  | fresh w pc =>
    exact ⟨f, h.move rfl (by rw [pc]; rfl) (fun _ => h.fresh (by rw [pc]; rfl)) trivial⟩
  | xor w pc =>
    have hheld : s.owner.lock = 1 := by rw [pc]; rfl
    obtain rfl : f = .lock := h.lock hheld
    obtain ⟨_, hstate, _, hset⟩ := setFinish_frame (b := b) s w (s.state ^^^ wakerFlagMask b)
    refine ⟨.set, ?_, hset.lock ▸ .replace rfl hheld, by rw [hset.fresh]; nofun, hset.knows⟩
    rw [hstate, h.state, xor_mask_pack h.lt]
  | or w pc =>
    obtain rfl : f = .clear := h.fresh (by rw [pc]; rfl)
    obtain ⟨_, hstate, _, hset⟩ := setFinish_frame (b := b) s w (s.state ||| wakerFlagSet b)
    refine ⟨.set, ?_, hset.lock ▸ .set rfl (by rw [pc]; rfl), by rw [hset.fresh]; nofun,
      hset.knows⟩
    rw [hstate, h.state, or_set_pack h.lt]
  | destroyCas pc => exact absurd pc hcas

end Waiter

/-! ## A `WaitGroup` and its guards -/

section Guards

variable {ι κ : Type}

/-- What the next step of the owner takes off the count: the compare-exchange of `destroy`. -/
def OwnerPc.removal (state : Nat) (choice : Bool) : OwnerPc κ → Option Nat
  | .destroyCas old => if state = old ∧ choice = false then some 1 else none
  | _ => none

/-- What the next step of a guard takes off the count: the compare-exchange of `done`. -/
def GuardPc.removal (state : Nat) (spurious : Bool) : GuardPc κ → Option Nat
  | .cas _ old => if state = old ∧ spurious = false then some 1 else none
  | _ => none

/-- What the action adds to the count. -/
def addition : Act ι κ → Option Nat
  | .addGuard _ | .clone _ _ => some 1
  | _ => none

/-- What the action takes from the count. -/
def removal (s : St ι κ) : Act ι κ → Option Nat
  | .stepOwner choice => s.owner.removal s.state choice
  | .stepGuard i spurious => (s.guard i).removal s.state spurious
  | _ => none

/-- The wait group with the sums of what was added and of what was removed. -/
def counted [DecidableEq ι] (b : Nat) (willWake : κ → κ → Bool) :
    System (St ι κ × Nat × Nat) (Act ι κ) :=
  (system b willWake).tally (fun _ a => (addition a).getD 0) (fun s a => (removal s a).getD 0)

variable [DecidableEq ι] {b : Nat} {s t : St ι κ} {i : ι} {choice : Bool}

variable {willWake : κ → κ → Bool}

omit [DecidableEq ι] in
/-- The exchange takes one off, or fails spuriously. -/
theorem stepOwner_destroyCas (hpc : s.owner = .destroyCas s.state)
    (h : stepOwner b willWake s choice = some t) :
    (choice = false ∧ t.state = s.state - 1) ∨ (choice = true ∧ t.state = s.state) := by
  simp only [stepOwner, hpc, true_and] at h
  split_ifs at h with hchoice
  · cases h
    exact .inl ⟨hchoice, rfl⟩
  · cases h
    exact .inr ⟨by simpa using hchoice, rfl⟩

/-- The word after a step of a guard: untouched, unlocked, or decremented. -/
theorem stepGuard_word (h : stepGuard b s i choice = some t) :
    ((s.guard i).removal s.state choice = none ∧ t.state = s.state) ∨
      ((s.guard i).removal s.state choice = none ∧ (s.guard i).lock = 1 ∧
        t.state = s.state &&& countMask b) ∨
      ((s.guard i).removal s.state choice = some 1 ∧
        ∃ T locks, s.guard i = .cas T s.state ∧ tryDone b s.state 1 T = some (locks, t.state)) := by
  unfold stepGuard at h
  split at h
  case h_3 T state pc =>
    rw [pc, GuardPc.removal]
    split_ifs at h with hcas
    · rw [if_pos hcas]
      obtain ⟨rfl, _⟩ := hcas
      split at h
      · next new word => cases h; exact .inr (.inr ⟨rfl, T, true, rfl, word⟩)
      · next new word => cases h; exact .inr (.inr ⟨rfl, T, false, rfl, word⟩)
      · cases h
    · rw [if_neg hcas]
      cases h
      exact .inl ⟨rfl, rfl⟩
  case h_5 w pc =>
    cases h
    rw [pc]
    exact .inr (.inl ⟨rfl, rfl, rfl⟩)
  case h_2 T state pc =>
    rw [pc]
    split_ifs at h
    all_goals
      cases h
      exact .inl ⟨rfl, rfl⟩
  case h_1 pc | h_4 pc | h_6 pc | h_7 pc =>
    cases h
    rw [pc]
    exact .inl ⟨rfl, rfl⟩
  all_goals cases h

variable [Fintype ι]

omit [DecidableEq ι] in
theorem Inv.relies (h : Inv b s) (href : s.owner.ref = 1) : ∃ f, Relies b s f s.refs := by
  obtain ⟨f, hword, hfresh⟩ := h.word_of_owner href
  refine ⟨f, hword.state, hword.lt, fun hlock => ?_, hfresh, h.owner⟩
  have hlocks := hword.locks
  unfold St.locks at hlocks
  by_contra hf
  rw [if_neg hf] at hlocks
  omega

omit [DecidableEq ι] in
/-- A step of the owner. -/
theorem Inv.accounts_owner (h : Inv b s) (hstep : stepOwner b willWake s choice = some t) :
    Accounts b s.state t.state none (s.owner.removal s.state choice) := by
  have href : s.owner.ref = 1 := by
    unfold stepOwner at hstep
    split at hstep <;> first | (next pc => rw [pc]; rfl) | cases hstep
  obtain ⟨f, hrel⟩ := h.relies href
  by_cases hcas : s.owner = .destroyCas s.state
  · rcases stepOwner_destroyCas hcas hstep with ⟨rfl, hstate⟩ | ⟨rfl, hstate⟩
    · rw [hcas, OwnerPc.removal, if_pos ⟨rfl, rfl⟩, hstate, hrel.state,
        pack_sub (refs_pos_of_owner href)]
      exact accounts_sub hrel.lt (refs_pos_of_owner href) (.inl rfl)
    · rw [hcas, OwnerPc.removal, if_neg (fun hc => nomatch hc.2), hstate]
      exact accounts_refl b s.state
  · have hnone : s.owner.removal s.state choice = none := by
      cases hpc : s.owner with
      | destroyCas old =>
        rw [OwnerPc.removal, if_neg]
        rintro ⟨rfl, _⟩
        exact hcas hpc
      | _ => rfl
    obtain ⟨g, hturned⟩ := hrel.ownerStep (ownerStep_of_stepOwner b willWake hstep) hcas
    rw [hnone, hturned.state, hrel.state]
    exact accounts_flag hrel.lt

/-- A step of a guard. -/
theorem Inv.accounts_guard (h : Inv b s) (hstep : stepGuard b s i choice = some t) :
    Accounts b s.state t.state none ((s.guard i).removal s.state choice) := by
  rcases stepGuard_word hstep with ⟨hnone, hstate⟩ | ⟨hnone, hlock, hstate⟩ |
    ⟨hsome, T, locks, hpc, hdone⟩
  · rw [hnone, hstate]
    exact accounts_refl b s.state
  · have hword := (h.locked_of_guard hlock).1
    rw [hnone, hstate, hword.state, and_countMask_pack hword.lt]
    exact accounts_flag hword.lt
  · obtain ⟨f, hword, _⟩ := h.word_of_guard (i := i) (by rw [hpc]; rfl)
    rw [hword.state] at hdone
    rw [hsome, hword.state]
    exact accounts_tryDone hword.lt hdone

/-- The start of a call. -/
theorem Inv.accounts_call {a : Act ι κ} (h : Inv b s) (hfits : fits b s a)
    (hstep : CallStep b s a t) : Accounts b s.state t.state (addition a) none := by
  have hadd : 0 < s.stakes → overflows b s.state = false →
      Accounts b s.state (fetchAdd b s.state 1) (some 1) none := by
    intro hpos hover
    obtain ⟨f, hword, _⟩ := h.word (h.frees_eq hpos)
    simp only [overflows, decide_eq_false_iff_not, hword.count, countMask_eq] at hover
    have hlt : s.refs + 1 < 2 ^ b := by omega
    rw [hword.state, fetchAdd_pack hlt]
    exact accounts_add hlt
  cases hstep with
  | addGuard j pc slot fit =>
    have hpos := refs_pos_of_owner (s := s) (by rw [pc]; rfl)
    exact hadd (by unfold St.stakes; omega) fit
  | clone j k T source slot fit => exact hadd (stakes_pos_of_guard (by rw [source]; rfl)) fit
  | addPanic j pc full | clonePanic j k T source full =>
    rw [show overflows b s.state = false from hfits] at full
    cases full
  | setThreshold | wait | waitAsync | poll | dropFuture | tryIntoInner | drop | dropGuard =>
    exact accounts_refl b s.state

/-- **Every action is accounted for.** -/
theorem accounts_of_dropOnly (hb : 1 ≤ b) {a : Act ι κ}
    (hs : Reach (system b willWake) (dropOnly b) s) (hok : dropOnly b s a)
    (hstep : step b willWake s a = some t) :
    Accounts b s.state t.state (addition a) (removal s a) := by
  have h := inv_of_dropOnly hb hs
  cases a with
  | stepOwner choice => exact h.accounts_owner hstep
  | stepGuard i spurious => exact h.accounts_guard hstep
  | tryIntoInner => exact hok.elim
  | addGuard | setThreshold | wait | waitAsync | poll | dropFuture | drop | clone | dropGuard =>
    rcases step_cases b willWake hstep with ⟨_, hact, _⟩ | ⟨_, _, hact, _⟩ | hcall
    · cases hact
    · cases hact
    · exact h.accounts_call hok hcall

end Guards

/-! ## A `WaitGroupInline` -/

namespace Inline

section Inline

variable {ι κ : Type}

/-- What the action adds to the count. -/
def addition : Act ι κ → Option Nat
  | .call _ c => if c.isAdd then some c.amount else none
  | _ => none

/-- What the action takes from the count. -/
def removal (s : St ι κ) : Act ι κ → Option Nat
  | .stepCaller i spurious => (s.caller i).removal s.group.state spurious
  | _ => none

/-- The inline group with the sums of what was added and of what was removed. -/
def counted [DecidableEq ι] (b : Nat) (willWake : κ → κ → Bool) (threshold : Nat) :
    System (St ι κ × Nat × Nat) (Act ι κ) :=
  (system b willWake threshold).tally (fun _ a => (addition a).getD 0)
    (fun s a => (removal s a).getD 0)

/-- An added amount fits into the count bits. -/
def addFits (b : Nat) (s : St ι κ) (a : Act ι κ) : Prop :=
  count b s.group.state + (addition a).getD 0 ≤ countMask b

instance (b : Nat) (s : St ι κ) (a : Act ι κ) : Decidable (addFits b s a) :=
  inferInstanceAs (Decidable (_ ≤ _))

/-- The caller holds the lock to take the waker. -/
def CallerPc.lock : CallerPc κ → Nat
  | .takeSlot _ | .unlock _ _ => 1
  | _ => 0

/-- The waiter's calls do not give the group up. -/
def waits : OwnerPc κ → Bool
  | .intoLoad | .intoFree | .destroyLoad | .destroyCas _ | .destroyFree | .taken | .gone
  | .panicked => false
  | _ => true

variable [Fintype ι]

/-- The word counts `n` with flag `f`, and its lock bit says that the lock is held. -/
structure Inv (b : Nat) (s : St ι κ) (f : Flag) (n : Nat) : Prop where
  state : s.group.state = pack b f n
  lt : n < 2 ^ b
  locks : s.group.owner.lock + ∑ i, (s.caller i).lock = if f = .lock then 1 else 0
  fresh : s.group.owner.fresh = true → f = .clear
  knows : OwnerKnows b s.group.owner
  waits : waits s.group.owner = true

variable {b n m : Nat} {f g : Flag} {s t : St ι κ} {i : ι} {spurious : Bool}

theorem Inv.relies (h : Inv b s f n) : Relies b s.group f n := by
  refine ⟨h.state, h.lt, fun hlock => ?_, h.fresh, h.knows⟩
  have hlocks := h.locks
  by_contra hf
  rw [if_neg hf] at hlocks
  omega

/-- A caller that holds the lock: the word is locked. -/
theorem Inv.locked (h : Inv b s f n) (hlock : (s.caller i).lock = 1) : f = .lock := by
  have hle := weight_le_sum CallerPc.lock s.caller i
  have hlocks := h.locks
  by_contra hf
  rw [if_neg hf] at hlocks
  omega

omit [Fintype ι] in
/-- The waiter of an inline group only waits. -/
theorem waits_of_ownerStep {s t : WaitGroup.St Empty κ} (hwaits : waits s.owner = true)
    (hstep : OwnerStep b s t) : waits t.owner = true := by
  have hsetOk : ∀ w, waits (s.setOk b w).owner = true := fun w => by cases w <;> rfl
  have hfinish : ∀ w new, waits (setFinish b s w new).owner = true := by
    intro w new
    unfold setFinish
    split_ifs
    · rfl
    · exact hsetOk w
  cases hstep with
  | move pc hmove =>
    cases hmove with
    | intoOk pc | intoErr pc => rw [pc] at hwaits; cases hwaits
    | destroy pc | destroyLast pc =>
      cases hpc : s.owner <;> rw [hpc] at pc hwaits <;> first | exact pc.elim | cases hwaits
    | _ => rfl
  | skip w pc => exact hsetOk w
  | xor w pc | or w pc => exact hfinish w _
  | intoFree pc | destroyCas pc | destroyFree pc => rw [pc] at hwaits; cases hwaits
  | ret | lock | replace | fresh => rfl

/-- A step of the waiter. -/
theorem Inv.waiter (h : Inv b s f n) {group : WaitGroup.St Empty κ}
    (hstep : OwnerStep b s.group group) :
    ∃ g, Inv b { s with group := group } g n := by
  have hcas : s.group.owner ≠ .destroyCas s.group.state := by
    intro hpc
    have := h.waits
    rw [hpc] at this
    cases this
  obtain ⟨g, hstate, hturns, hfresh, hknows⟩ := h.relies.ownerStep hstep hcas
  refine ⟨g, hstate, h.lt, ?_, hfresh, hknows, waits_of_ownerStep h.waits hstep⟩
  have hlocks := h.locks
  show group.owner.lock + ∑ i, (s.caller i).lock = _
  generalize group.owner.lock = l at hturns ⊢
  generalize s.group.owner.lock = k at hturns hlocks
  cases hturns with
  | same => exact hlocks
  | lock hset hfree | set hset hfree =>
    rw [hset, if_neg nofun] at hlocks
    simp only [reduceCtorEq, if_true, if_false]
    omega
  | replace hlocked hheld =>
    rw [hlocked, if_pos rfl] at hlocks
    rw [if_neg nofun]
    omega

/-- A call of the waiter changes its program counter only. -/
theorem Inv.waiterCall (h : Inv b s f n) {group : WaitGroup.St Empty κ}
    (hstate : group.state = s.group.state) (hlock : group.owner.lock = s.group.owner.lock)
    (hfresh : group.owner.fresh = true → s.group.owner.fresh = true)
    (hknows : OwnerKnows b group.owner) (hwaits : Inline.waits group.owner = true) :
    Inv b { s with group := group } f n :=
  ⟨hstate.trans h.state, h.lt, hlock ▸ h.locks, fun hf => h.fresh (hfresh hf), hknows, hwaits⟩

variable [DecidableEq ι]

/-- A step of one caller changes one summand of the locks. -/
theorem Inv.caller (h : Inv b s f n) {pc : CallerPc κ} (howner : t.group.owner = s.group.owner)
    (hcaller : t.caller = update s.caller i pc) (hstate : t.group.state = pack b g m)
    (hlt : m < 2 ^ b) (hclear : f = .clear → g = .clear)
    (hlock : (if f = .lock then 1 else 0) + pc.lock =
      (if g = .lock then 1 else 0) + (s.caller i).lock) : Inv b t g m := by
  refine ⟨hstate, hlt, ?_, fun hf => hclear (h.fresh (howner ▸ hf)), howner ▸ h.knows,
    howner ▸ h.waits⟩
  have hlocks := h.locks
  have hsum := sum_update CallerPc.lock s.caller i pc
  rw [howner, hcaller]
  omega

/-- A step of a caller. -/
theorem Inv.callerStep {threshold : Nat} (h : Inv b s f n)
    (hstep : CallerStep b threshold s i spurious t) :
    (∃ g m, Inv b t g m) ∧ Accounts b s.group.state t.group.state none
      ((s.caller i).removal s.group.state spurious) := by
  -- a step that leaves the word alone
  have hkeep : ∀ {pc : CallerPc κ}, t.group.owner = s.group.owner →
      t.caller = update s.caller i pc → t.group.state = s.group.state →
      pc.lock = (s.caller i).lock → (s.caller i).removal s.group.state spurious = none →
      (∃ g m, Inv b t g m) ∧ Accounts b s.group.state t.group.state none
        ((s.caller i).removal s.group.state spurious) := by
    intro pc howner hcaller hstate hlock hnone
    refine ⟨⟨f, n, h.caller howner hcaller (hstate.trans h.state) h.lt id (by rw [hlock])⟩, ?_⟩
    rw [hnone, hstate]
    exact accounts_refl b _
  have hreads : ∀ {delta}, (s.caller i).reads s.group.state spurious delta →
      (s.caller i).lock = 0 ∧ (s.caller i).removal s.group.state spurious = none := by
    rintro delta (hpc | ⟨old, hpc, hnone⟩)
    · rw [hpc]
      exact ⟨rfl, rfl⟩
    · exact ⟨by rw [hpc]; rfl, hnone⟩
  -- a successful compare-exchange
  have hdone : ∀ {pc : CallerPc κ} {delta new : Nat} {locks : Bool},
      s.caller i = .cas delta s.group.state → spurious = false →
      tryDone b s.group.state delta threshold = some (locks, new) →
      t.group.owner = s.group.owner → t.caller = update s.caller i pc →
      t.group.state = new → pc.lock = (if locks then 1 else 0) →
      (∃ g m, Inv b t g m) ∧ Accounts b s.group.state t.group.state none
        ((s.caller i).removal s.group.state spurious) := by
    intro pc delta new locks hpc hhit hword howner hcaller hstate hlock
    rw [h.state] at hword
    obtain ⟨hdelta, hnew, hset⟩ := tryDone_word h.lt hword
    have hold : (s.caller i).lock = 0 := by rw [hpc]; rfl
    refine ⟨⟨_, _, h.caller howner hcaller (hstate.trans hnew) (by have := h.lt; omega) ?_ ?_⟩, ?_⟩
    · intro hclear
      cases locks
      · exact hclear
      · rw [hset rfl] at hclear
        cases hclear
    · cases locks
      · rw [hlock, hold]
        rfl
      · rw [hlock, hold, hset rfl]
        rfl
    · rw [hpc, CallerPc.removal, if_pos ⟨rfl, hhit⟩, hstate, h.state]
      exact accounts_tryDone h.lt hword
  -- the lock holder clears the flag
  have hunlock : ∀ {pc : CallerPc κ} {zero : Bool} {w : Slot κ}, s.caller i = .unlock zero w →
      t.group.owner = s.group.owner → t.caller = update s.caller i pc →
      t.group.state = s.group.state &&& countMask b → pc.lock = 0 →
      (∃ g m, Inv b t g m) ∧ Accounts b s.group.state t.group.state none
        ((s.caller i).removal s.group.state spurious) := by
    intro pc zero w hpc howner hcaller hstate hlock
    have hheld : (s.caller i).lock = 1 := by rw [hpc]; rfl
    have hf := h.locked hheld
    have hnew : t.group.state = pack b .clear n := by
      rw [hstate, h.state, and_countMask_pack h.lt]
    refine ⟨⟨.clear, n, h.caller howner hcaller hnew h.lt (fun _ => rfl) ?_⟩, ?_⟩
    · rw [hf, hlock, hheld]
      rfl
    · rw [hpc, hnew, h.state]
      exact accounts_flag h.lt
  cases hstep with
  | more delta pc | underflow delta pc =>
    exact hkeep rfl rfl rfl (hreads pc).1.symm (hreads pc).2
  | lock delta new pc hit word | leave delta new pc hit word =>
    exact hdone pc hit word rfl rfl rfl rfl
  | take zero pc | wake zero number w pc =>
    exact hkeep rfl rfl rfl (by rw [pc]; rfl) (by rw [pc]; rfl)
  | unlock zero number w pc | unlockNone zero pc => exact hunlock pc rfl rfl rfl rfl

/-- **Every action is accounted for.** -/
theorem Inv.next {willWake : κ → κ → Bool} {threshold : Nat} {a : Act ι κ} (h : Inv b s f n)
    (hok : addFits b s a) (hstep : step b willWake threshold s a = some t) :
    (∃ g m, Inv b t g m) ∧
      Accounts b s.group.state t.group.state (addition a) (removal s a) := by
  rcases step_cases hstep with ⟨i, c, rfl, pc, hadd, rfl⟩ | ⟨i, c, rfl, pc, hadd, rfl⟩ |
    ⟨i, spurious, rfl, hcaller⟩ | ⟨a', group, hwaiter, hgroup, rfl⟩
  · have hlt : n + c.amount < 2 ^ b := by
      simp only [addFits, addition, hadd, h.state, count_pack h.lt, countMask_eq] at hok
      have := Nat.two_pow_pos b
      simp only [if_true, Option.getD_some] at hok
      omega
    have hnew : fetchAdd b s.group.state c.amount = pack b f (n + c.amount) := by
      rw [h.state, fetchAdd_pack hlt]
    have hidle : (afterAdd b s.group.state : CallerPc κ).lock = 0 := by
      unfold afterAdd
      split_ifs <;> rfl
    refine ⟨⟨f, n + c.amount, h.caller rfl rfl hnew hlt id ?_⟩, ?_⟩
    · rw [hidle, pc]
      rfl
    · simp only [addition, hadd, if_true]
      show Accounts b _ (fetchAdd b _ _) _ _
      rw [hnew, h.state]
      exact accounts_add hlt
  · refine ⟨⟨f, n, h.caller rfl rfl h.state h.lt id (by rw [pc]; rfl)⟩, ?_⟩
    simp only [addition, hadd]
    exact accounts_refl b _
  · exact h.callerStep (callerStep_of_stepCaller hcaller)
  · -- the waiter neither adds nor removes
    have hwait : (∃ g, Inv b { s with group := group } g n) := by
      rcases WaitGroup.step_cases b willWake hgroup with ⟨_, _, hown⟩ | ⟨e, _⟩ | hcall
      · exact h.waiter hown
      · exact e.elim
      · cases hcall with
        | wait d pc | poll k T o pc =>
          exact ⟨f, h.waiterCall rfl (by rw [pc]; rfl) nofun trivial rfl⟩
        | waitAsync pc | dropFuture pc =>
          exact ⟨f, h.waiterCall rfl rfl id h.knows h.waits⟩
        | addGuard e | addPanic e | clone e | clonePanic e | dropGuard e => exact e.elim
        | setThreshold | tryIntoInner | drop => cases a <;> cases hwaiter
    obtain ⟨g, hg⟩ := hwait
    have hnone : addition a = none ∧ removal s a = none := by
      cases a <;> first | exact ⟨rfl, rfl⟩ | cases hwaiter
    refine ⟨⟨g, n, hg⟩, ?_⟩
    rw [hnone.1, hnone.2, hg.state, h.state]
    exact accounts_flag h.lt

/-- The word is well formed in every run. -/
theorem inv_of_addFits {willWake : κ → κ → Bool} {threshold : Nat}
    (hs : Reach (system b willWake threshold) (addFits b) s) : ∃ f n, Inv b s f n := by
  refine hs.invariant (P := fun s => ∃ f n, Inv b s f n) ?_ fun s a t h hok hstep => ?_
  · rintro s rfl
    refine ⟨.clear, 0, rfl, Nat.two_pow_pos b, ?_, nofun, trivial, rfl⟩
    have hsum : ∑ i : ι, ((St.new threshold : St ι κ).caller i).lock = 0 :=
      Finset.sum_eq_zero fun i _ => rfl
    rw [hsum]
    rfl
  · obtain ⟨f, n, h⟩ := h
    exact (h.next hok hstep).1

end Inline

end Inline

/-! ## The balance of a run -/

/-- In the runs in which no added amount overruns the count bits, the count of an inline group is
the sum of the added amounts minus the sum of the removed ones, and every addition and removal keeps
the flag, except for the lock that a removal takes from a registered waker. So it is for a
`WaitGroup`, whose own reference is there from the start, when no `add` panics. -/
theorem count_exact {ι κ : Type} [Fintype ι] [DecidableEq ι] {b : Nat} (hb : 1 ≤ b)
    (willWake : κ → κ → Bool) :
    (∀ (threshold : Nat) (s : Inline.St ι κ) (added removed : Nat),
      Reach (Inline.counted b willWake threshold) (fun p a => Inline.addFits b p.1 a)
        (s, added, removed) →
      count b s.group.state + removed = added ∧
        ∀ a t, Inline.addFits b s a → Inline.step b willWake threshold s a = some t →
          Accounts b s.group.state t.group.state (Inline.addition a) (Inline.removal s a)) ∧
    ∀ (s : St ι κ) (added removed : Nat),
      Reach (counted b willWake) (fun p a => dropOnly b p.1 a) (s, added, removed) →
      count b s.state + removed = 1 + added ∧
        ∀ a t, dropOnly b s a → step b willWake s a = some t →
          Accounts b s.state t.state (addition a) (removal s a) := by
  refine ⟨fun threshold s added removed hs => ⟨?_, fun a t hok hstep => ?_⟩,
    fun s added removed hs => ⟨?_, fun a t hok hstep => ?_⟩⟩
  · have hstart : ∀ s : Inline.St ι κ, (Inline.system b willWake threshold).init s →
        count b s.group.state = 0 := by
      rintro s rfl
      exact count_pack (f := .clear) (Nat.two_pow_pos b)
    have hbalance := Reach.tally_eq hstart (fun s a t hs hok hstep => ?_) hs
    · rwa [Nat.zero_add] at hbalance
    · obtain ⟨f, n, h⟩ := Inline.inv_of_addFits hs
      exact (h.next hok hstep).2.count
  · obtain ⟨f, n, h⟩ := Inline.inv_of_addFits hs.of_tally
    exact (h.next hok hstep).2
  · have hstart : ∀ s : St ι κ, (system b willWake).init s → count b s.state = 1 := by
      rintro s ⟨T, rfl⟩
      exact count_pack (f := .clear) (Nat.one_lt_two_pow (by omega))
    exact Reach.tally_eq hstart
      (fun s a t hs hok hstep => (accounts_of_dropOnly hb hs hok hstep).count) hs
  · exact accounts_of_dropOnly hb hs.of_tally hok hstep

/-- Two `add_many` of `COUNT_MASK - 3` return without a panic. The carry sets the lock bit, and the
count bits are not the sum. -/
theorem add_many_overruns :
    ∃ p : Inline.St (Fin 1) Nat × Nat × Nat,
      Reachable (Inline.counted 62 (· == ·) 0) p ∧ p.1.caller 0 = .idle ∧
        isLocked 62 p.1.group.state = true ∧ count 62 p.1.group.state + p.2.2 ≠ p.2.1 := by
  have hnew : Reachable (Inline.counted 62 (· == ·) 0)
      ((Inline.St.new 0 : Inline.St (Fin 1) Nat), 0, 0) := .init ⟨rfl, rfl⟩
  exact hnew.exists_of_run
    [.call 0 (.addMany (countMask 62 - 3)), .call 0 (.addMany (countMask 62 - 3))] _
    (by decide +kernel)

/-- A reference of each kind of group is added and removed again. -/
theorem count_exact_pair :
    (∃ p : Inline.St (Fin 1) Nat × Nat × Nat,
      Reach (Inline.counted 62 (· == ·) 0) (fun p a => Inline.addFits 62 p.1 a) p ∧
        p.2 = (3, 2) ∧ count 62 p.1.group.state + 2 = 3) ∧
    ∃ p : St (Fin 1) Nat × Nat × Nat,
      Reach (counted 62 (· == ·)) (fun p a => dropOnly 62 p.1 a) p ∧
        p.2 = (1, 1) ∧ count 62 p.1.state + 1 = 1 + 1 := by
  obtain ⟨hinline, hgroup⟩ := count_exact (ι := Fin 1) (b := 62) (by decide) (· == · : Nat → _)
  constructor
  · have hnew : Reach (Inline.counted 62 (· == ·) 0) (fun p a => Inline.addFits 62 p.1 a)
        ((Inline.St.new 0 : Inline.St (Fin 1) Nat), 0, 0) := .init ⟨rfl, rfl⟩
    obtain ⟨⟨s, _⟩, hp, rfl⟩ := hnew.exists_of_run
      [.call 0 (.addMany 3), .call 0 (.doneMany 2), .stepCaller 0 false, .stepCaller 0 false]
      (fun p => p.2 = (3, 2)) (by decide +kernel)
    exact ⟨(s, 3, 2), hp, rfl, (hinline 0 s 3 2 hp).1⟩
  · have hnew : Reach (counted 62 (· == ·)) (fun p a => dropOnly 62 p.1 a)
        ((St.new 0 : St (Fin 1) Nat), 0, 0) := .init ⟨⟨0, rfl⟩, rfl⟩
    obtain ⟨⟨s, _⟩, hp, rfl⟩ := hnew.exists_of_run
      [.addGuard 0, .dropGuard 0, .stepGuard 0 false, .stepGuard 0 false]
      (fun p => p.2 = (1, 1)) (by decide +kernel)
    exact ⟨(s, 1, 1), hp, rfl, (hgroup s 1 1 hp).1⟩

end Crossfire.WaitGroup
