import Crossfire.WaitGroup.Steps

/-!
# Who may touch the wait group's block

The count bits of the state word are the references still held, and the lock bit says that one party
holds the lock. A party has a stake in the block while it holds a reference, holds the lock, or is
about to free the block. `Inv` says that the word counts exactly and that whoever is about to free
has the only stake left.

The steps of the owner and of the guards, and the calls, keep `Inv` (`Inv.owner_step`,
`Inv.guard_step`, `Inv.call`). `inv_of_reach` is the invariant of the runs in which no `add`
overflows and `try_into_inner` does not find the lock held, `inv_of_dropOnly` that of the runs
without `try_into_inner`.
-/

set_option autoImplicit false

namespace Crossfire.WaitGroup

open Lib.Interleaving Lib.FlagWord Function

section Weights

variable {κ : Type}

/-- The owner's reference. -/
def OwnerPc.ref : OwnerPc κ → Nat
  | .taken | .gone | .panicked => 0
  | _ => 1

/-- The owner holds the lock to replace the waker. -/
def OwnerPc.lock : OwnerPc κ → Nat
  | .setReplace _ | .setXor _ => 1
  | _ => 0

/-- Some later step of the owner may access the block. -/
def OwnerPc.holds : OwnerPc κ → Bool
  | .taken | .gone | .panicked => false
  | _ => true

/-- The owner writes the slot with no flag set. -/
def OwnerPc.fresh : OwnerPc κ → Bool
  | .setFresh _ | .setOr _ => true
  | _ => false

/-- The owner's next step is `Box::from_raw`. -/
def OwnerPc.freeing : OwnerPc κ → Bool
  | .intoFree | .destroyFree => true
  | _ => false

/-- The guard's reference is in the count. -/
def GuardPc.ref : GuardPc κ → Nat
  | .alive _ | .load _ | .recheck _ _ | .cas _ _ => 1
  | .free counted => if counted then 1 else 0
  | _ => 0

/-- The guard holds the lock to take the waker. -/
def GuardPc.lock : GuardPc κ → Nat
  | .takeSlot | .unlock _ => 1
  | _ => 0

/-- The guard released the lock at count zero and is about to free the block. -/
def GuardPc.late : GuardPc κ → Nat
  | .free counted => if counted then 0 else 1
  | _ => 0

/-- The guard's next step is `Box::from_raw`. -/
def GuardPc.freeing : GuardPc κ → Bool
  | .free _ => true
  | _ => false

/-- The guard has a stake in the block. -/
def GuardPc.stake (pc : GuardPc κ) : Nat := pc.ref + pc.lock + pc.late

/-- Some later step of the guard may access the block. -/
def GuardPc.holds : GuardPc κ → Bool
  | .absent | .wake _ _ | .gone | .panicked => false
  | _ => true

theorem GuardPc.holds_iff (pc : GuardPc κ) : pc.holds = true ↔ pc.stake = 1 := by
  cases pc with
  | free counted => cases counted <;> simp [holds, stake, ref, lock, late]
  | _ => simp [holds, stake, ref, lock, late]

theorem GuardPc.holds_of_freeing {pc : GuardPc κ} (h : pc.freeing = true) : pc.holds = true := by
  cases pc <;> first | rfl | cases h

theorem OwnerPc.holds_iff (pc : OwnerPc κ) : pc.holds = true ↔ pc.ref = 1 := by
  cases pc <;> simp [holds, ref]

theorem OwnerPc.ref_of_freeing {pc : OwnerPc κ} (h : pc.freeing = true) : pc.ref = 1 := by
  cases pc <;> first | rfl | cases h

theorem OwnerPc.lock_le_ref (pc : OwnerPc κ) : pc.lock ≤ pc.ref := by
  cases pc <;> simp [lock, ref]

end Weights

variable {ι κ : Type} [Fintype ι] {b : Nat} {s t : St ι κ}

/-- References held by guards. -/
def St.guardRefs (s : St ι κ) : Nat := ∑ i, (s.guard i).ref

/-- Locks held by guards. -/
def St.guardLocks (s : St ι κ) : Nat := ∑ i, (s.guard i).lock

/-- Guards that free the block after they released the lock at count zero. -/
def St.lates (s : St ι κ) : Nat := ∑ i, (s.guard i).late

/-- References in the count. -/
def St.refs (s : St ι κ) : Nat := s.owner.ref + s.guardRefs

/-- Holders of the lock. -/
def St.locks (s : St ι κ) : Nat := s.owner.lock + s.guardLocks

/-- Parties with a stake in the block. -/
def St.stakes (s : St ι κ) : Nat := s.refs + s.guardLocks + s.lates

/-- The word has this flag, counts the references, and its lock bit says that the lock is held. -/
structure Word (b : Nat) (s : St ι κ) (f : Flag) : Prop where
  state : s.state = pack b f s.refs
  lt : s.refs < 2 ^ b
  locks : s.locks = if f = .lock then 1 else 0

/-- What a program counter of the owner has read. -/
def OwnerKnows (b : Nat) : OwnerPc κ → Prop
  | .setLock _ state => hasWaker b state = true
  | .destroyCas state => isLocked b state = true ∨ 1 < count b state
  | .panicked => False
  | _ => True

/-- What a program counter of a guard has read. -/
def GuardKnows (b : Nat) : GuardPc κ → Prop
  | .recheck _ state => isLast b state 1 = true
  | .cas _ state => isLast b state 1 = false
  | .panicked => False
  | _ => True

/-- The invariant of the runs without overflow in which `try_into_inner` sees no lock. -/
structure Inv (b : Nat) (s : St ι κ) : Prop where
  word : s.frees = 0 → ∃ f, Word b s f ∧ (s.owner.fresh = true → f = .clear)
  freed : s.frees = if s.stakes = 0 then 1 else 0
  lastOwner : s.owner.freeing = true → s.stakes = 1
  lastGuard : ∀ i, (s.guard i).freeing = true → s.stakes = 1
  owner : OwnerKnows b s.owner
  guard : ∀ i, GuardKnows b (s.guard i)

/-! ## Consequences for the party that takes a step -/

theorem Inv.frees_eq (h : Inv b s) (hs : 0 < s.stakes) : s.frees = 0 := by
  rw [h.freed, if_neg (by omega)]

theorem refs_pos_of_owner (h : s.owner.ref = 1) : 0 < s.refs := by
  unfold St.refs
  omega

theorem guardRefs_pos {i : ι} (h : (s.guard i).ref = 1) : 0 < s.guardRefs := by
  have := weight_le_sum GuardPc.ref s.guard i
  unfold St.guardRefs
  omega

theorem refs_pos_of_guard {i : ι} (h : (s.guard i).ref = 1) : 0 < s.refs := by
  have := guardRefs_pos h
  unfold St.refs
  omega

theorem stakes_eq_sum (s : St ι κ) : s.stakes = s.owner.ref + ∑ i, (s.guard i).stake := by
  simp only [St.stakes, St.refs, St.guardRefs, St.guardLocks, St.lates, GuardPc.stake,
    Finset.sum_add_distrib]
  omega

theorem stakes_pos_of_guard {i : ι} (h : (s.guard i).holds = true) : 0 < s.stakes := by
  rw [GuardPc.holds_iff] at h
  have := weight_le_sum GuardPc.stake s.guard i
  rw [stakes_eq_sum]
  omega

theorem GuardPc.freeing_of_late {pc : GuardPc κ} (h : 0 < pc.late) : pc.freeing = true := by
  cases pc <;> first | rfl | exact absurd h (Nat.lt_irrefl 0)

/-- A guard that is about to free has the only stake: while a reference or the lock is held there is
no guard that found the count at zero. -/
theorem Inv.lates_eq_zero (h : Inv b s) (hs : 0 < s.refs + s.guardLocks) : s.lates = 0 := by
  by_contra hne
  obtain ⟨i, hi⟩ := exists_weight_pos GuardPc.late s.guard (Nat.pos_of_ne_zero hne)
  have hlast := h.lastGuard i (GuardPc.freeing_of_late hi)
  unfold St.stakes at hlast
  omega

/-- An unlocked word with count one leaves a single stake. -/
theorem Inv.stakes_eq_one {f : Flag} (h : Inv b s) (hword : Word b s f)
    (hf : f ≠ .lock) (hrefs : s.refs = 1) : s.stakes = 1 := by
  have hlocks := hword.locks
  rw [if_neg hf] at hlocks
  have hguard : s.guardLocks = 0 := by
    unfold St.locks at hlocks
    omega
  have hlate := h.lates_eq_zero (by omega)
  unfold St.stakes
  omega

theorem Inv.word_of_owner (h : Inv b s) (href : s.owner.ref = 1) :
    ∃ f, Word b s f ∧ (s.owner.fresh = true → f = .clear) := by
  refine h.word (h.frees_eq ?_)
  have := refs_pos_of_owner href
  unfold St.stakes
  omega

theorem Inv.word_of_guard {i : ι} (h : Inv b s)
    (hi : (s.guard i).holds = true) : ∃ f, Word b s f ∧ (s.owner.fresh = true → f = .clear) :=
  h.word (h.frees_eq (stakes_pos_of_guard hi))

/-! ## Steps of the owner -/

section Owner

/-- A step of the owner keeps the invariant if the new word is right. -/
theorem Inv.of_write (h : Inv b s) (hguard : t.guard = s.guard) (hfrees : t.frees = s.frees)
    (href : t.owner.ref = s.owner.ref)
    (hword : ∀ f, Word b s f → (s.owner.fresh = true → f = .clear) →
      ∃ g, Word b t g ∧ (t.owner.fresh = true → g = .clear))
    (hlast : t.owner.freeing = true → s.stakes = 1) (hknows : OwnerKnows b t.owner) :
    Inv b t := by
  have hstakes : t.stakes = s.stakes := by
    simp only [St.stakes, St.refs, St.guardRefs, St.guardLocks, St.lates, href, hguard]
  refine ⟨?_, ?_, ?_, ?_, hknows, ?_⟩
  · rw [hfrees]
    intro hzero
    obtain ⟨f, hs, hclear⟩ := h.word hzero
    exact hword f hs hclear
  · rw [hfrees, hstakes, h.freed]
  · rw [hstakes]
    exact hlast
  · rw [hstakes, hguard]
    exact h.lastGuard
  · rw [hguard]
    exact h.guard

/-- A step of the owner that leaves the word alone. -/
theorem Inv.of_move (h : Inv b s) (hguard : t.guard = s.guard) (hstate : t.state = s.state)
    (hfrees : t.frees = s.frees) (href : t.owner.ref = s.owner.ref)
    (hlock : t.owner.lock = s.owner.lock)
    (hfresh : t.owner.fresh = true → s.owner.fresh = true ∨ ∀ f, Word b s f → f = .clear)
    (hlast : t.owner.freeing = true → s.stakes = 1) (hknows : OwnerKnows b t.owner) :
    Inv b t := by
  refine h.of_write hguard hfrees href (fun f hs hclear => ?_) hlast hknows
  have hrefs : t.refs = s.refs := by simp only [St.refs, St.guardRefs, hguard, href]
  have hlocks : t.locks = s.locks := by simp only [St.locks, St.guardLocks, hguard, hlock]
  refine ⟨f, ⟨?_, ?_, ?_⟩, fun ht => ?_⟩
  · rw [hstate, hrefs, hs.state]
  · rw [hrefs]
    exact hs.lt
  · rw [hlocks, hs.locks]
  · rcases hfresh ht with hfr | hfr
    · exact hclear hfr
    · exact hfr f hs

theorem Word.isLocked {f : Flag} (h : Word b s f) : isLocked b s.state = decide (f = .lock) := by
  rw [h.state, isLocked_pack h.lt]

theorem Word.hasWaker {f : Flag} (h : Word b s f) : hasWaker b s.state = decide (f = .set) := by
  rw [h.state, hasWaker_pack h.lt]

theorem Word.count {f : Flag} (h : Word b s f) : count b s.state = s.refs := by
  rw [h.state, count_pack h.lt]

theorem OwnerPc.setting_spec {pc : OwnerPc κ} {w : Wait κ} (h : pc.setting w) :
    pc.ref = 1 ∧ pc.lock = 0 := by
  cases pc <;> first | exact ⟨rfl, rfl⟩ | exact h.elim

theorem OwnerPc.destroying_spec {pc : OwnerPc κ} (h : pc.destroying) :
    pc.ref = 1 ∧ pc.lock = 0 := by
  cases pc <;> first | exact ⟨rfl, rfl⟩ | exact h.elim

/-- The owner's reference is the last one and nobody holds the lock. -/
theorem Inv.last_of_owner (h : Inv b s) (href : s.owner.ref = 1)
    (hunlocked : isLocked b s.state = false) (hcount : count b s.state ≤ 1) : s.stakes = 1 := by
  obtain ⟨f, hword, _⟩ := h.word_of_owner href
  rw [hword.isLocked, decide_eq_false_iff_not] at hunlocked
  rw [hword.count] at hcount
  have hpos := refs_pos_of_owner href
  exact h.stakes_eq_one hword hunlocked (by omega)

/-- The load of `try_into_inner` does not find the count at the owner's reference with the lock
held. -/
def intoUnlocked (b : Nat) (s : St ι κ) : Prop :=
  ¬ (s.owner = .intoLoad ∧ WaitGroup.count b s.state = 1 ∧ WaitGroup.isLocked b s.state = true)

/-- The owner goes on. -/
theorem Inv.ownerMove (h : Inv b s) (hinto : intoUnlocked b s) {pc : OwnerPc κ}
    (hmove : OwnerMove b s pc) : Inv b { s with owner := pc } := by
  cases hmove with
  | checkSet T d w pc | checkAgain T d w r r' pc | pollCheck T k pc | pollSet T k pc
  | park T d pc | parkReturn T d r pc | intoErr pc =>
    exact h.of_move rfl rfl rfl (by rw [pc]; rfl) (by rw [pc]; rfl) nofun nofun trivial
  | setSpin w pc =>
    obtain ⟨href, hlock⟩ := OwnerPc.setting_spec pc
    exact h.of_move rfl rfl rfl href.symm hlock.symm nofun nofun trivial
  | setLock w pc above unlocked waker =>
    obtain ⟨href, hlock⟩ := OwnerPc.setting_spec pc
    exact h.of_move rfl rfl rfl href.symm hlock.symm nofun nofun waker
  | setFresh w pc above unlocked waker =>
    obtain ⟨href, hlock⟩ := OwnerPc.setting_spec pc
    refine h.of_move rfl rfl rfl href.symm hlock.symm (fun _ => .inr fun f hword => ?_) nofun
      trivial
    rw [hword.isLocked, decide_eq_false_iff_not] at unlocked
    rw [hword.hasWaker, decide_eq_false_iff_not] at waker
    cases f <;> first | rfl | contradiction
  | intoOk pc last =>
    refine h.of_move rfl rfl rfl (by rw [pc]; rfl) (by rw [pc]; rfl) nofun (fun _ => ?_) trivial
    refine h.last_of_owner (by rw [pc]; rfl) ?_ (by omega)
    exact Bool.eq_false_iff.mpr fun hlocked => hinto ⟨pc, last, hlocked⟩
  | destroy pc more =>
    obtain ⟨href, hlock⟩ := OwnerPc.destroying_spec pc
    exact h.of_move rfl rfl rfl href.symm hlock.symm nofun nofun more
  | destroyLast pc unlocked last =>
    obtain ⟨href, hlock⟩ := OwnerPc.destroying_spec pc
    exact h.of_move rfl rfl rfl href.symm hlock.symm nofun
      (fun _ => h.last_of_owner href unlocked last) trivial

omit [Fintype ι] in
theorem OwnerRet.spec {r : WaitRes} (h : OwnerRet b s r) : s.owner.ref = 1 ∧ s.owner.lock = 0 := by
  cases h with
  | check _ _ _ _ pc | pollLoad _ _ pc | pollCheck _ _ pc | pollPending _ _ pc | timeout _ pc =>
    rw [pc]
    exact ⟨rfl, rfl⟩
  | set w pc => exact OwnerPc.setting_spec pc

/-- `try_set_waker` returned: the owner has its reference and nothing else. -/
structure Settled (b : Nat) (pc : OwnerPc κ) : Prop where
  ref : pc.ref = 1
  lock : pc.lock = 0
  fresh : pc.fresh = false
  freeing : pc.freeing = false
  not_into : pc ≠ .intoLoad
  not_taken : pc ≠ .taken
  knows : OwnerKnows b pc

omit [Fintype ι] in
theorem settled_setOk (s : St ι κ) (w : Wait κ) : Settled b (s.setOk b w).owner := by
  cases w <;> exact ⟨rfl, rfl, rfl, rfl, nofun, nofun, trivial⟩

omit [Fintype ι] in
theorem setOk_frame (s : St ι κ) (w : Wait κ) :
    (s.setOk b w).guard = s.guard ∧ (s.setOk b w).state = s.state ∧
      (s.setOk b w).frees = s.frees := by
  cases w <;> exact ⟨rfl, rfl, rfl⟩

omit [Fintype ι] in
theorem setFinish_frame (s : St ι κ) (w : Wait κ) (new : Nat) :
    (setFinish b s w new).guard = s.guard ∧ (setFinish b s w new).state = new ∧
      (setFinish b s w new).frees = s.frees ∧ Settled b (setFinish b s w new).owner := by
  unfold setFinish
  split_ifs
  · exact ⟨rfl, rfl, rfl, rfl, rfl, rfl, rfl, nofun, nofun, trivial⟩
  · exact ⟨(setOk_frame s w).1, rfl, (setOk_frame s w).2.2, settled_setOk s w⟩

/-- `try_set_waker` writes the waker flag over a word it owns: a locked one or one without a
flag. -/
theorem Inv.of_finish (h : Inv b s) {w : Wait κ} {new : Nat} {f : Flag} (href : s.owner.ref = 1)
    (hf : ∀ g, Word b s g → (s.owner.fresh = true → g = .clear) → g = f ∧ s.guardLocks = 0)
    (hnew : s.state = pack b f s.refs → s.refs < 2 ^ b → new = pack b .set s.refs) :
    Inv b (setFinish b s w new) := by
  obtain ⟨hguard, hstate, hfrees, hset⟩ := setFinish_frame (b := b) s w new
  refine h.of_write hguard hfrees (hset.ref.trans href.symm) (fun g hs hclear => ?_)
    (by rw [hset.freeing]; nofun) hset.knows
  have hrefs : (setFinish b s w new).refs = s.refs := by
    simp only [St.refs, St.guardRefs, hguard, hset.ref, href]
  refine ⟨.set, ⟨?_, ?_, ?_⟩, by rw [hset.fresh]; nofun⟩
  · rw [hstate, hrefs]
    refine hnew ?_ hs.lt
    rw [← (hf g hs hclear).1]
    exact hs.state
  · rw [hrefs]
    exact hs.lt
  · have hzero := (hf g hs hclear).2
    unfold St.guardLocks at hzero
    simp only [St.locks, St.guardLocks, hguard, hset.lock, hzero]
    rfl

/-- The owner frees the block: it has the only stake. -/
theorem Inv.of_freeOwner (h : Inv b s) (hfreeing : s.owner.freeing = true)
    (hguard : t.guard = s.guard) (hfrees : t.frees = s.frees + 1) (hgone : t.owner.ref = 0)
    (hknows : OwnerKnows b t.owner) : Inv b t := by
  have hlast := h.lastOwner hfreeing
  have href := OwnerPc.ref_of_freeing hfreeing
  have hzero := h.frees_eq (by omega)
  have hstakes : t.stakes = 0 := by
    simp only [St.stakes, St.refs, St.guardRefs, St.guardLocks, St.lates] at hlast ⊢
    rw [hguard]
    omega
  refine ⟨fun ht => by omega, ?_, ?_, ?_, hknows, by rw [hguard]; exact h.guard⟩
  · rw [hfrees, hzero, hstakes]
    rfl
  · intro ht
    rw [OwnerPc.ref_of_freeing ht] at hgone
    cases hgone
  · intro i hi
    have := stakes_pos_of_guard (GuardPc.holds_of_freeing hi)
    omega

/-- While the owner has its reference, no guard is about to free. -/
theorem Inv.not_freeing_of_owner (h : Inv b s) (href : s.owner.ref = 1) (i : ι) :
    (s.guard i).freeing = false := by
  by_contra hne
  have hi : (s.guard i).freeing = true := by simpa using hne
  have hlast := h.lastGuard i hi
  have hstake := (GuardPc.holds_iff _).mp (GuardPc.holds_of_freeing hi)
  have hle := weight_le_sum GuardPc.stake s.guard i
  rw [stakes_eq_sum] at hlast
  omega

/-- The owner leaves the block to the lock holder or to the other references. -/
theorem Inv.of_destroyCas (h : Inv b s) (href : s.owner.ref = 1) (hlock : s.owner.lock = 0)
    (hmore : isLocked b s.state = true ∨ 1 < WaitGroup.count b s.state)
    (hguard : t.guard = s.guard) (hstate : t.state = s.state - 1) (hfrees : t.frees = s.frees)
    (howner : t.owner = .gone) : Inv b t := by
  obtain ⟨f, hs, _⟩ := h.word_of_owner href
  have hpos := refs_pos_of_owner href
  have hzero := h.frees_eq (by unfold St.stakes; omega)
  have hlocks := hs.locks
  have hrefs : t.refs + 1 = s.refs := by
    simp only [St.refs, St.guardRefs, hguard, howner, href]
    exact Nat.add_right_comm 0 _ 1
  have hguardLocks : t.guardLocks = s.guardLocks := by rw [St.guardLocks, hguard]; rfl
  have htlocks : t.locks = s.locks := by
    simp only [St.locks, hguardLocks, howner, hlock]
    rfl
  -- the lock is held by a guard, or another reference is left
  have hleft : 0 < t.refs + t.guardLocks := by
    rcases hmore with hlocked | hcount
    · rw [hs.isLocked, decide_eq_true_eq] at hlocked
      rw [if_pos hlocked, St.locks] at hlocks
      omega
    · rw [hs.count] at hcount
      omega
  refine ⟨fun _ => ⟨f, ⟨?_, ?_, ?_⟩, ?_⟩, ?_, ?_, fun i hi => ?_, ?_, ?_⟩
  · rw [hstate, hs.state, ← hrefs]
    exact pack_sub (Nat.le_add_left 1 _)
  · have := hs.lt
    omega
  · rw [htlocks, hlocks]
  · rw [howner]
    nofun
  · rw [if_neg (by unfold St.stakes; omega), hfrees, hzero]
  · rw [howner]
    nofun
  · rw [hguard, h.not_freeing_of_owner href i] at hi
    cases hi
  · rw [howner]
    trivial
  · rw [hguard]
    exact h.guard

/-- **A step of the owner keeps the invariant.** -/
theorem Inv.owner_step (h : Inv b s) (hinto : intoUnlocked b s) (hstep : OwnerStep b s t) :
    Inv b t := by
  cases hstep with
  | move pc hmove => exact h.ownerMove hinto hmove
  | ret r hret =>
    obtain ⟨href, hlock⟩ := hret.spec
    exact h.of_move rfl rfl rfl href.symm hlock.symm nofun nofun trivial
  | skip w pc =>
    obtain ⟨href, hlock⟩ := OwnerPc.setting_spec pc
    obtain ⟨hguard, hstate, hfrees⟩ := setOk_frame (b := b) s w
    have hset := settled_setOk (b := b) s w
    exact h.of_move hguard hstate hfrees (hset.ref.trans href.symm) (hset.lock.trans hlock.symm)
      (by rw [hset.fresh]; nofun) (by rw [hset.freeing]; nofun) hset.knows
  | lock w pc =>
    refine h.of_write rfl rfl (by rw [pc]; rfl) (fun f hs _ => ?_) nofun trivial
    have hwaker := h.owner
    rw [pc] at hwaker
    obtain rfl : f = .set := of_decide_eq_true (hs.hasWaker ▸ hwaker)
    have hlocks := hs.locks
    simp only [St.locks, pc] at hlocks
    have hrefs : ({ s with state := tryLock b s.state, owner := .setReplace w } : St ι κ).refs =
        s.refs := by
      simp only [St.refs, St.guardRefs, pc]
      rfl
    refine ⟨.lock, ⟨?_, ?_, ?_⟩, nofun⟩
    · rw [hrefs, hs.state, tryLock_pack hs.lt]
    · rw [hrefs]
      exact hs.lt
    · change 1 + s.guardLocks = 1
      change 0 + s.guardLocks = 0 at hlocks
      omega
  | replace w pc =>
    exact h.of_move rfl rfl rfl (by rw [pc]; rfl) (by rw [pc]; rfl) nofun nofun trivial
  | fresh w pc =>
    exact h.of_move rfl rfl rfl (by rw [pc]; rfl) (by rw [pc]; rfl)
      (fun _ => .inl (by rw [pc]; rfl)) nofun trivial
  | xor w pc =>
    -- the owner itself is the holder of the lock
    have hlock : s.owner.lock = 1 := by rw [pc]; rfl
    have hflag : ∀ g, Word b s g → g = .lock ∧ s.guardLocks = 0 := by
      intro g hs
      have hlocks := hs.locks
      unfold St.locks at hlocks
      by_cases hg : g = .lock
      · rw [if_pos hg] at hlocks
        exact ⟨hg, by omega⟩
      · rw [if_neg hg] at hlocks
        omega
    exact h.of_finish (by rw [pc]; rfl) (fun g hs _ => hflag g hs)
      fun hstate hlt => by rw [hstate, xor_mask_pack hlt]
  | or w pc =>
    refine h.of_finish (f := .clear) (by rw [pc]; rfl) (fun g hs hclear => ?_)
      fun hstate hlt => by rw [hstate, or_set_pack hlt]
    obtain rfl := hclear (by rw [pc]; rfl)
    have hlocks := hs.locks
    rw [if_neg nofun, St.locks] at hlocks
    exact ⟨rfl, by omega⟩
  | intoFree pc | destroyFree pc => exact h.of_freeOwner (by rw [pc]; rfl) rfl rfl rfl trivial
  | destroyCas pc =>
    have hknows := h.owner
    rw [pc] at hknows
    exact h.of_destroyCas (by rw [pc]; rfl) (by rw [pc]; rfl) hknows rfl rfl rfl rfl

end Owner

/-! ## Steps of a guard -/

section Guard

variable [DecidableEq ι] {i : ι} {pc : GuardPc κ}

/-- A step of one guard changes one summand of each sum. -/
structure Shift (s t : St ι κ) (i : ι) (pc : GuardPc κ) : Prop where
  owner : t.owner = s.owner
  guard : t.guard = update s.guard i pc
  refs : t.refs + (s.guard i).ref = s.refs + pc.ref
  guardLocks : t.guardLocks + (s.guard i).lock = s.guardLocks + pc.lock
  lates : t.lates + (s.guard i).late = s.lates + pc.late

theorem Shift.of_update (howner : t.owner = s.owner)
    (hguard : t.guard = update s.guard i pc) : Shift s t i pc := by
  refine ⟨howner, hguard, ?_, ?_, ?_⟩
  · have := sum_update GuardPc.ref s.guard i pc
    simp only [St.refs, St.guardRefs, howner, hguard]
    omega
  · simp only [St.guardLocks, hguard]
    exact sum_update GuardPc.lock s.guard i pc
  · simp only [St.lates, hguard]
    exact sum_update GuardPc.late s.guard i pc

/-- A property of every guard's program counter survives if the new one has it. -/
theorem Shift.forall_guard (h : Shift s t i pc) (P : GuardPc κ → Prop) (hnew : P pc)
    (hold : ∀ j, j ≠ i → P (s.guard j)) (j : ι) : P (t.guard j) := by
  rw [h.guard]
  by_cases hji : j = i
  · subst hji
    rw [update_self]
    exact hnew
  · rw [update_of_ne hji]
    exact hold j hji

theorem Shift.locks (h : Shift s t i pc) :
    t.locks + (s.guard i).lock = s.locks + pc.lock := by
  have := h.guardLocks
  simp only [St.locks, h.owner]
  omega

theorem Shift.stakes (h : Shift s t i pc) :
    t.stakes + (s.guard i).stake = s.stakes + pc.stake := by
  have hr := h.refs
  have hl := h.guardLocks
  have ht := h.lates
  simp only [St.stakes, GuardPc.stake]
  omega

/-- A guard with a stake excludes everybody else from freeing. -/
theorem Inv.not_freeing_of_guard (h : Inv b s) (hi : (s.guard i).holds = true) :
    s.owner.freeing = false ∧ ∀ j, j ≠ i → (s.guard j).freeing = false := by
  rw [GuardPc.holds_iff] at hi
  refine ⟨?_, fun j hj => ?_⟩
  · by_contra hne
    have ho : s.owner.freeing = true := by simpa using hne
    have hlast := h.lastOwner ho
    have href := OwnerPc.ref_of_freeing ho
    have hle := weight_le_sum GuardPc.stake s.guard i
    rw [stakes_eq_sum] at hlast
    omega
  · by_contra hne
    have hfree : (s.guard j).freeing = true := by simpa using hne
    have hlast := h.lastGuard j hfree
    have hstake := (GuardPc.holds_iff _).mp (GuardPc.holds_of_freeing hfree)
    have hle := weight_add_weight_le_sum GuardPc.stake s.guard hj
    rw [stakes_eq_sum] at hlast
    omega

/-- A step of guard `i`, which keeps a stake or leaves one to somebody else. -/
theorem Inv.of_guard (h : Inv b s) (hshift : Shift s t i pc) (hi : (s.guard i).holds = true)
    (hfrees : t.frees = s.frees) (hleft : 0 < t.stakes)
    (hword : ∀ f, Word b s f → ∃ g, Word b t g ∧ (f = .clear → g = .clear))
    (hlast : pc.freeing = true → t.stakes = 1) (hknows : GuardKnows b pc) : Inv b t := by
  obtain ⟨howner, hothers⟩ := h.not_freeing_of_guard hi
  obtain ⟨f, hs, hclear⟩ := h.word_of_guard hi
  have hzero := h.frees_eq (stakes_pos_of_guard hi)
  refine ⟨fun _ => ?_, ?_, ?_, ?_, ?_,
    hshift.forall_guard (GuardKnows b) hknows fun j _ => h.guard j⟩
  · obtain ⟨g, hg, himp⟩ := hword f hs
    refine ⟨g, hg, fun hfresh => himp (hclear ?_)⟩
    rw [← hshift.owner]
    exact hfresh
  · rw [hfrees, hzero, if_neg (by omega)]
  · rw [hshift.owner, howner]
    nofun
  · refine hshift.forall_guard (fun pc => pc.freeing = true → t.stakes = 1) hlast fun j hj => ?_
    rw [hothers j hj]
    nofun
  · rw [hshift.owner]
    exact h.owner

/-- A step of guard `i` that moves its program counter and keeps its part in the word. -/
theorem Inv.of_guardMove (h : Inv b s) (hshift : Shift s t i pc) (hi : (s.guard i).holds = true)
    (hstate : t.state = s.state) (hfrees : t.frees = s.frees)
    (href : pc.ref = (s.guard i).ref) (hlock : pc.lock = (s.guard i).lock)
    (hlate : pc.late = (s.guard i).late) (hlast : pc.freeing = true → s.stakes = 1)
    (hknows : GuardKnows b pc) : Inv b t := by
  have hstakes : t.stakes = s.stakes := by
    have := hshift.stakes
    simp only [GuardPc.stake] at this
    omega
  have hpos := stakes_pos_of_guard hi
  refine h.of_guard hshift hi hfrees (by omega) (fun f hs => ⟨f, ⟨?_, ?_, ?_⟩, id⟩)
    (fun hf => by rw [hstakes]; exact hlast hf) hknows
  · have := hshift.refs
    rw [hstate, hs.state, show t.refs = s.refs by omega]
  · have := hshift.refs
    have := hs.lt
    omega
  · have := hshift.locks
    have := hs.locks
    omega

omit [Fintype ι] [DecidableEq ι] in
theorem GuardPc.finishing_spec {pc : GuardPc κ} {T : Nat} (h : pc.finishing T) :
    pc.ref = 1 ∧ pc.lock = 0 ∧ pc.late = 0 ∧ pc.holds = true := by
  cases pc <;> first | exact ⟨rfl, rfl, rfl, rfl⟩ | exact h.elim

omit [DecidableEq ι] in
theorem Word.isLast {f : Flag} (h : Word b s f) (delta : Nat) :
    isLast b s.state delta = decide (f ≠ .lock ∧ s.refs = delta) := by
  rw [h.state, isLast_pack h.lt]

omit [DecidableEq ι] in
/-- `try_done` on the current word: it locks a word with a waker at the threshold, and otherwise
keeps the flag. -/
theorem Word.tryDone_cases {f : Flag} (h : Word b s f) (hpos : 0 < s.refs) (T : Nat) :
    (s.refs - 1 ≤ T ∧ f = .set ∧ tryDone b s.state 1 T = some (true, pack b .lock (s.refs - 1))) ∨
      (¬ (s.refs - 1 ≤ T ∧ f = .set) ∧
        tryDone b s.state 1 T = some (false, pack b f (s.refs - 1))) := by
  rw [h.state, tryDone_pack h.lt hpos]
  by_cases hlock : s.refs - 1 ≤ T ∧ f = .set
  · exact .inl ⟨hlock.1, hlock.2, by rw [if_pos hlock]⟩
  · exact .inr ⟨hlock, by rw [if_neg hlock]⟩

/-- The compare-exchange of `done` that takes the lock. -/
theorem Inv.of_guardLock (h : Inv b s) {T new : Nat} (hpc : s.guard i = .cas T s.state)
    (hdone : tryDone b s.state 1 T = some (true, new)) (hshift : Shift s t i .takeSlot)
    (hstate : t.state = new) (hfrees : t.frees = s.frees) : Inv b t := by
  have hi : (s.guard i).holds = true := by rw [hpc]; rfl
  have hpos := refs_pos_of_guard (s := s) (i := i) (by rw [hpc]; rfl)
  have hrefs : t.refs + 1 = s.refs := by
    have := hshift.refs
    rw [hpc] at this
    exact this
  have hlocks : t.locks = s.locks + 1 := by
    have := hshift.locks
    rw [hpc] at this
    exact this
  have hstakes : t.stakes = s.stakes := by
    have := hshift.stakes
    rw [hpc] at this
    exact Nat.add_right_cancel this
  refine h.of_guard hshift hi hfrees ?_ (fun f hs => ?_) nofun trivial
  · rw [hstakes]
    exact stakes_pos_of_guard hi
  · rcases hs.tryDone_cases hpos T with ⟨_, rfl, hd⟩ | ⟨_, hd⟩
    · rw [hdone] at hd
      cases hd
      refine ⟨.lock, ⟨?_, ?_, ?_⟩, nofun⟩
      · rw [hstate, ← hrefs]
        rfl
      · have := hs.lt
        omega
      · rw [hlocks, hs.locks]
        rfl
    · rw [hdone] at hd
      cases hd

/-- The compare-exchange of `done` that only decrements: the guard was not the last stake. -/
theorem Inv.of_guardLeave (h : Inv b s) {T new : Nat} (hpc : s.guard i = .cas T s.state)
    (hdone : tryDone b s.state 1 T = some (false, new)) (hshift : Shift s t i .gone)
    (hstate : t.state = new) (hfrees : t.frees = s.frees) : Inv b t := by
  have hi : (s.guard i).holds = true := by rw [hpc]; rfl
  have hpos := refs_pos_of_guard (s := s) (i := i) (by rw [hpc]; rfl)
  have hrefs : t.refs + 1 = s.refs := by
    have := hshift.refs
    rw [hpc] at this
    exact this
  have hguardLocks : t.guardLocks = s.guardLocks := by
    have := hshift.guardLocks
    rw [hpc] at this
    exact this
  have hlocks : t.locks = s.locks := by
    have := hshift.locks
    rw [hpc] at this
    exact this
  refine h.of_guard hshift hi hfrees ?_ (fun f hs => ?_) nofun trivial
  · obtain ⟨f, hs, _⟩ := h.word_of_guard hi
    have hknows : isLast b s.state 1 = false := by
      have := h.guard i
      rw [hpc] at this
      exact this
    rw [hs.isLast, decide_eq_false_iff_not] at hknows
    -- the word was not the last one: locked, or with more than one reference
    by_cases hf : f = .lock
    · have hheld := hs.locks
      rw [if_pos hf, St.locks] at hheld
      have hown := OwnerPc.lock_le_ref s.owner
      have hguard : 0 < s.guardRefs := guardRefs_pos (i := i) (by rw [hpc]; rfl)
      have hsum : s.refs = s.owner.ref + s.guardRefs := rfl
      unfold St.stakes
      omega
    · have hne : s.refs ≠ 1 := fun hone => hknows ⟨hf, hone⟩
      unfold St.stakes
      omega
  · rcases hs.tryDone_cases hpos T with ⟨_, _, hd⟩ | ⟨_, hd⟩
    · rw [hdone] at hd
      cases hd
    · rw [hdone] at hd
      cases hd
      refine ⟨f, ⟨?_, ?_, ?_⟩, id⟩
      · rw [hstate, ← hrefs]
        rfl
      · have := hs.lt
        omega
      · rw [hlocks, hs.locks]

omit [DecidableEq ι] in
/-- A guard that holds the lock: the word is locked and nobody else holds the lock. -/
theorem Inv.locked_of_guard (h : Inv b s) (hlock : (s.guard i).lock = 1) :
    Word b s .lock ∧ s.owner.lock = 0 ∧ s.guardLocks = 1 ∧ s.lates = 0 := by
  have hi : (s.guard i).holds = true := by
    cases hpc : s.guard i with
    | takeSlot | unlock _ => rfl
    | _ => rw [hpc] at hlock; cases hlock
  obtain ⟨f, hs, _⟩ := h.word_of_guard hi
  have hle := weight_le_sum GuardPc.lock s.guard i
  have hlocks := hs.locks
  simp only [St.locks, St.guardLocks] at hlocks ⊢
  have hf : f = .lock := by
    by_contra hf
    rw [if_neg hf] at hlocks
    omega
  rw [if_pos hf] at hlocks
  refine ⟨hf ▸ hs, by omega, by omega, h.lates_eq_zero ?_⟩
  unfold St.guardLocks
  omega

/-- `done` releases the lock. -/
theorem Inv.of_unlock (h : Inv b s) {w : Slot κ} (hpc : s.guard i = .unlock w)
    (hshift : Shift s t i pc) (hstate : t.state = s.state &&& countMask b)
    (hfrees : t.frees = s.frees) (href : pc.ref = 0) (hlock : pc.lock = 0)
    (hlate : s.refs = 0 → pc.late = 1) (hlast : pc.freeing = true → s.refs = 0)
    (hknows : GuardKnows b pc) : Inv b t := by
  have hi : (s.guard i).holds = true := by rw [hpc]; rfl
  obtain ⟨hs, hown, hone, hlates⟩ := h.locked_of_guard (i := i) (by rw [hpc]; rfl)
  have hrefs : t.refs = s.refs := by
    have := hshift.refs
    rw [hpc, href] at this
    exact this
  have hguardLocks : t.guardLocks = 0 := by
    have := hshift.guardLocks
    rw [hpc, hlock, hone] at this
    exact Nat.add_right_cancel this
  have htlates : t.lates = pc.late := by
    have := hshift.lates
    rw [hpc, hlates, Nat.zero_add] at this
    exact this
  have hstakes : t.stakes = s.refs + pc.late := by
    unfold St.stakes
    omega
  -- with no reference left the guard keeps the only stake, to free the block
  refine h.of_guard hshift hi hfrees ?_ (fun f hf => ⟨.clear, ⟨?_, ?_, ?_⟩, fun _ => rfl⟩) ?_ hknows
  · by_cases hzero : s.refs = 0
    · have := hlate hzero
      omega
    · omega
  · rw [hstate, hs.state, and_countMask_pack hs.lt, hrefs]
  · rw [hrefs]
    exact hs.lt
  · rw [St.locks, hshift.owner, hown, hguardLocks]
    rfl
  · intro hfree
    have hzero := hlast hfree
    have := hlate hzero
    omega

/-- A step of a party that has no stake before it and none after it. -/
theorem Inv.of_idleGuard (h : Inv b s) (hshift : Shift s t i pc) (hstate : t.state = s.state)
    (hfrees : t.frees = s.frees) (hold : (s.guard i).stake = 0) (hnew : pc.stake = 0)
    (hknows : GuardKnows b pc) : Inv b t := by
  have hr := hshift.refs
  have hl := hshift.locks
  have hst := hshift.stakes
  simp only [GuardPc.stake] at hold hnew
  have hrefs : t.refs = s.refs := by omega
  have hlocks : t.locks = s.locks := by omega
  have hstakes : t.stakes = s.stakes := by
    simp only [GuardPc.stake] at hst
    omega
  have hfreeing : pc.freeing = false := by
    by_contra hne
    have hfree : pc.freeing = true := by simpa using hne
    have := (GuardPc.holds_iff _).mp (GuardPc.holds_of_freeing hfree)
    simp only [GuardPc.stake] at this
    omega
  refine ⟨?_, ?_, ?_, ?_, ?_, hshift.forall_guard (GuardKnows b) hknows fun j _ => h.guard j⟩
  · rw [hfrees, hshift.owner]
    intro hzero
    obtain ⟨f, hs, hclear⟩ := h.word hzero
    exact ⟨f, ⟨by rw [hstate, hrefs, hs.state], by rw [hrefs]; exact hs.lt,
      by rw [hlocks, hs.locks]⟩, hclear⟩
  · rw [hfrees, hstakes, h.freed]
  · rw [hstakes, hshift.owner]
    exact h.lastOwner
  · rw [hstakes]
    refine hshift.forall_guard (fun pc => pc.freeing = true → s.stakes = 1) ?_
      fun j _ => h.lastGuard j
    rw [hfreeing]
    nofun
  · rw [hshift.owner]
    exact h.owner

/-- A guard frees the block: it has the only stake. -/
theorem Inv.of_freeGuard (h : Inv b s) (hfree : (s.guard i).freeing = true)
    (hshift : Shift s t i .gone) (hfrees : t.frees = s.frees + 1) : Inv b t := by
  have hlast := h.lastGuard i hfree
  have hzero := h.frees_eq (by omega)
  have hstake := (GuardPc.holds_iff _).mp (GuardPc.holds_of_freeing hfree)
  have hstakes : t.stakes = 0 := by
    have := hshift.stakes
    rw [hstake, hlast] at this
    exact Nat.add_right_cancel this
  refine ⟨fun ht => by omega, ?_, fun ht => ?_, fun j hj => ?_, ?_,
    hshift.forall_guard (GuardKnows b) trivial fun j _ => h.guard j⟩
  · rw [hfrees, hzero, hstakes]
    rfl
  · have := OwnerPc.ref_of_freeing ht
    rw [stakes_eq_sum] at hstakes
    omega
  · have := stakes_pos_of_guard (GuardPc.holds_of_freeing hj)
    omega
  · rw [hshift.owner]
    exact h.owner

/-- A new guard, while somebody with a stake is there to create it. -/
theorem Inv.of_join (h : Inv b s) {T : Nat} (hpc : s.guard i = .absent)
    (hshift : Shift s t i (.alive T)) (hstate : t.state = fetchAdd b s.state 1)
    (hfrees : t.frees = s.frees) (hfits : overflows b s.state = false) (hpos : 0 < s.stakes)
    (howner : s.owner.freeing = false) (hothers : ∀ j, (s.guard j).freeing = false) : Inv b t := by
  have hzero := h.frees_eq hpos
  obtain ⟨f, hs, hclear⟩ := h.word hzero
  have hrefs : t.refs = s.refs + 1 := by
    have := hshift.refs
    rw [hpc] at this
    exact this
  have hlocks : t.locks = s.locks := by
    have := hshift.locks
    rw [hpc] at this
    exact this
  have hlt : s.refs + 1 < 2 ^ b := by
    simp only [overflows, decide_eq_false_iff_not, hs.count, countMask_eq] at hfits
    omega
  refine ⟨fun _ => ⟨f, ⟨?_, ?_, ?_⟩, ?_⟩, ?_, ?_, ?_, ?_,
    hshift.forall_guard (GuardKnows b) trivial fun j _ => h.guard j⟩
  · rw [hstate, hs.state, fetchAdd_pack hlt, hrefs]
  · rw [hrefs]
    exact hlt
  · rw [hlocks, hs.locks]
  · rw [hshift.owner]
    exact hclear
  · rw [hfrees, hzero, if_neg (by unfold St.stakes; omega)]
  · rw [hshift.owner, howner]
    nofun
  · refine hshift.forall_guard (fun pc => pc.freeing = true → t.stakes = 1) nofun fun j _ => ?_
    rw [hothers j]
    nofun
  · rw [hshift.owner]
    exact h.owner

omit [Fintype ι] [DecidableEq ι] in
theorem afterUnlock_spec (w : Slot κ) :
    (afterUnlock w).stake = 0 ∧ (afterUnlock w).freeing = false ∧
      GuardKnows b (afterUnlock w) := by
  rcases w with _ | ⟨number, waker⟩ <;> exact ⟨rfl, rfl, trivial⟩

/-- **A step of a guard keeps the invariant.** -/
theorem Inv.guard_step (h : Inv b s) (hstep : GuardStep b s i t) : Inv b t := by
  cases hstep with
  | last T pc last =>
    obtain ⟨href, hlock, hlate, hi⟩ := GuardPc.finishing_spec pc
    exact h.of_guardMove (.of_update rfl rfl) hi rfl rfl href.symm hlock.symm hlate.symm nofun last
  | more T pc more =>
    obtain ⟨href, hlock, hlate, hi⟩ := GuardPc.finishing_spec pc
    exact h.of_guardMove (.of_update rfl rfl) hi rfl rfl href.symm hlock.symm hlate.symm nofun more
  | underflow T pc under =>
    -- the guard's own reference is in the count
    obtain ⟨href, _, _, hi⟩ := GuardPc.finishing_spec pc
    obtain ⟨f, hs, _⟩ := h.word_of_guard hi
    rcases hs.tryDone_cases (refs_pos_of_guard href) T with ⟨_, _, hd⟩ | ⟨_, hd⟩
    all_goals
      rw [under] at hd
      cases hd
  | confirmed T pc =>
    have hi : (s.guard i).holds = true := by rw [pc]; rfl
    have hknows : isLast b s.state 1 = true := by
      have := h.guard i
      rw [pc] at this
      exact this
    obtain ⟨f, hs, _⟩ := h.word_of_guard hi
    rw [hs.isLast, decide_eq_true_eq] at hknows
    exact h.of_guardMove (.of_update rfl rfl) hi rfl rfl (by rw [pc]; rfl) (by rw [pc]; rfl)
      (by rw [pc]; rfl) (fun _ => h.stakes_eq_one hs hknows.1 hknows.2) trivial
  | lock T new pc word => exact h.of_guardLock pc word (.of_update rfl rfl) rfl rfl
  | leave T new pc word => exact h.of_guardLeave pc word (.of_update rfl rfl) rfl rfl
  | take pc =>
    exact h.of_guardMove (.of_update rfl rfl) (by rw [pc]; rfl) rfl rfl (by rw [pc]; rfl)
      (by rw [pc]; rfl) (by rw [pc]; rfl) nofun trivial
  | unlockLast w pc zero =>
    have hs := (h.locked_of_guard (i := i) (by rw [pc]; rfl)).1
    rw [hs.count] at zero
    exact h.of_unlock pc (.of_update rfl rfl) rfl rfl rfl rfl (fun _ => rfl) (fun _ => zero) trivial
  | unlock w pc nonzero =>
    have hs := (h.locked_of_guard (i := i) (by rw [pc]; rfl)).1
    rw [hs.count] at nonzero
    obtain ⟨hstake, hfreeing, hknows⟩ := afterUnlock_spec (b := b) w
    simp only [GuardPc.stake] at hstake
    exact h.of_unlock pc (.of_update rfl rfl) rfl rfl (by omega) (by omega)
      (fun hzero => absurd hzero nonzero) (by rw [hfreeing]; nofun) hknows
  | wake number w pc =>
    exact h.of_idleGuard (.of_update rfl rfl) rfl rfl (by rw [pc]; rfl) rfl trivial
  | free counted pc => exact h.of_freeGuard (by rw [pc]; rfl) (.of_update rfl rfl) rfl

/-! ## Calls and whole runs -/

/-- No `add` at a count where it panics: fewer than `COUNT_MASK - 2` references. -/
def fits (b : Nat) (s : St ι κ) : Act ι κ → Prop
  | .addGuard _ | .clone _ _ => overflows b s.state = false
  | _ => True

/-- The start of a call. -/
theorem Inv.call (h : Inv b s) {a : Act ι κ} (hfits : fits b s a) (hstep : CallStep b s a t) :
    Inv b t := by
  cases hstep with
  | addGuard j pc slot overflow =>
    have href : s.owner.ref = 1 := by rw [pc]; rfl
    have hpos := refs_pos_of_owner href
    exact h.of_join slot (.of_update rfl rfl) rfl rfl overflow (by unfold St.stakes; omega)
      (by rw [pc]; rfl) (h.not_freeing_of_owner href)
  | addPanic _ _ overflow | clonePanic _ _ _ _ overflow =>
    rw [show overflows b s.state = false from hfits] at overflow
    cases overflow
  | clone j k T source slot overflow =>
    have hj : (s.guard j).holds = true := by rw [source]; rfl
    obtain ⟨howner, hothers⟩ := h.not_freeing_of_guard hj
    refine h.of_join slot (.of_update rfl rfl) rfl rfl overflow (stakes_pos_of_guard hj) howner
      fun l => ?_
    by_cases hl : l = j
    · rw [hl, source]
      rfl
    · exact hothers l hl
  | dropGuard j T pc =>
    exact h.of_guardMove (.of_update rfl rfl) (by rw [pc]; rfl) rfl rfl (by rw [pc]; rfl)
      (by rw [pc]; rfl) (by rw [pc]; rfl) nofun trivial
  | wait d pc | poll k T o pc | tryIntoInner pc | drop pc =>
    exact h.of_move rfl rfl rfl (by rw [pc]; rfl) (by rw [pc]; rfl) nofun nofun trivial
  | setThreshold T pc | waitAsync pc | dropFuture pc =>
    exact h.of_move rfl rfl rfl rfl rfl .inl h.lastOwner h.owner

/-- The step is not an overflowing `add`, and not a load of `try_into_inner` that finds the count at
the owner's reference with the lock held. -/
def safeInto (b : Nat) (s : St ι κ) : Act ι κ → Prop
  | .stepOwner _ => intoUnlocked b s
  | a => fits b s a

/-- The step is not an overflowing `add` and not a call of `try_into_inner`. -/
def dropOnly (b : Nat) (s : St ι κ) : Act ι κ → Prop
  | .tryIntoInner => False
  | a => fits b s a

omit [DecidableEq ι] in
/-- A new group. -/
theorem inv_new (hb : 1 ≤ b) (T : Nat) : Inv b (St.new T : St ι κ) := by
  have hsum : ∀ weight : GuardPc κ → Nat, weight .absent = 0 →
      ∑ i, weight ((St.new T : St ι κ).guard i) = 0 := by
    intro weight hzero
    exact Finset.sum_eq_zero fun i _ => hzero
  have hrefs : (St.new T : St ι κ).refs = 1 := by
    rw [St.refs, St.guardRefs, hsum _ rfl]
    rfl
  have hlocks : (St.new T : St ι κ).guardLocks = 0 := hsum _ rfl
  have hlt : 1 < 2 ^ b := Nat.one_lt_two_pow (by omega)
  refine ⟨fun _ => ⟨.clear, ⟨?_, ?_, ?_⟩, nofun⟩, ?_, nofun, nofun, trivial, fun _ => trivial⟩
  · rw [hrefs]
    rfl
  · rw [hrefs]
    exact hlt
  · rw [St.locks, hlocks]
    rfl
  · rw [if_neg (by unfold St.stakes; omega)]
    rfl

variable {willWake : κ → κ → Bool}

/-- **The invariant holds on every safe run.** -/
theorem inv_of_reach (hb : 1 ≤ b) (hs : Reach (system b willWake) (safeInto b) s) : Inv b s := by
  refine hs.invariant ?_ ?_
  · rintro _ ⟨T, rfl⟩
    exact inv_new hb T
  · intro s a t h hok hstep
    rcases step_cases b willWake hstep with ⟨c, rfl, hown⟩ | ⟨j, c, rfl, hguard⟩ | hcall
    · exact h.owner_step hok hown
    · exact h.guard_step hguard
    · refine h.call ?_ hcall
      cases a with
      | stepOwner => trivial
      | _ => exact hok

omit [Fintype ι] in
/-- Without a call of `try_into_inner` the owner is never inside it. -/
theorem not_into_of_reach
    (hs : Reach (system b willWake) (dropOnly b) s) : s.owner ≠ .intoLoad := by
  refine hs.invariant (P := fun s => s.owner ≠ .intoLoad) ?_ ?_
  · rintro _ ⟨T, rfl⟩
    nofun
  · intro s a t h hok hstep
    rcases step_cases b willWake hstep with ⟨c, rfl, hown⟩ | ⟨j, c, rfl, hguard⟩ | hcall
    · cases hown with
      | move pc hmove => cases hmove <;> nofun
      | skip w pc => exact (settled_setOk (b := b) s w).not_into
      | xor w pc | or w pc =>
        exact (setFinish_frame (b := b) s w _).2.2.2.not_into
      | ret | lock | replace | fresh | intoFree | destroyCas | destroyFree => nofun
    · cases hguard <;> exact h
    · cases hcall with
      | tryIntoInner => exact hok.elim
      | wait | poll | drop | addPanic => nofun
      | addGuard | setThreshold | waitAsync | dropFuture | clone | clonePanic | dropGuard => exact h

/-- **The invariant holds if guards are only dropped.** -/
theorem inv_of_dropOnly (hb : 1 ≤ b) (hs : Reach (system b willWake) (dropOnly b) s) : Inv b s := by
  refine @inv_of_reach _ _ _ _ _ _ willWake hb ?_
  induction hs with
  | init h => exact .init h
  | step a hs hok hstep ih =>
    refine .step a ih ?_ hstep
    cases a with
    | stepOwner => exact fun hinto => not_into_of_reach hs hinto.1
    | tryIntoInner => exact hok.elim
    | _ => exact hok

end Guard

end Crossfire.WaitGroup
