import Crossfire.WaitGroup.Memory

/-!
# When the wait group's block is freed

`block_freed_once` is the drop protocol: in every run without `try_into_inner` the block is freed
exactly once, by a party that is then the only one left, and never touched again.

`into_inner_safe` is `try_into_inner`. It looks only at the count bits and not at the lock, so it is
safe in the runs in which its load does not find the count at the owner's reference with the lock
held. `into_inner_under_guard` is a run in which it does: `done` has decremented the count and taken
the lock in one compare-exchange, `wait` returns on that count, and `try_into_inner` frees the block
before `done` takes the waker out of it.
-/

set_option autoImplicit false

namespace Crossfire.WaitGroup

open Lib.Interleaving

variable {ι κ : Type}

/-! ## Run conditions are decidable -/

section Conditions

variable [DecidableEq κ]

instance (b : Nat) (s : St ι κ) : Decidable (intoUnlocked b s) :=
  inferInstanceAs (Decidable (¬ (s.owner = .intoLoad ∧ _ ∧ _)))

instance (b : Nat) (s : St ι κ) : (a : Act ι κ) → Decidable (fits b s a)
  | .addGuard _ | .clone _ _ => inferInstanceAs (Decidable (overflows b s.state = false))
  | .setThreshold _ | .wait _ | .waitAsync | .poll _ | .dropFuture | .tryIntoInner | .drop
  | .stepOwner _ | .dropGuard _ | .stepGuard _ _ => inferInstanceAs (Decidable True)

instance (b : Nat) (s : St ι κ) : (a : Act ι κ) → Decidable (safeInto b s a)
  | .stepOwner _ => inferInstanceAs (Decidable (intoUnlocked b s))
  | .addGuard i => inferInstanceAs (Decidable (fits b s (.addGuard i)))
  | .clone i j => inferInstanceAs (Decidable (fits b s (.clone i j)))
  | .setThreshold _ | .wait _ | .waitAsync | .poll _ | .dropFuture | .tryIntoInner | .drop
  | .dropGuard _ | .stepGuard _ _ => inferInstanceAs (Decidable True)

instance (b : Nat) (s : St ι κ) : (a : Act ι κ) → Decidable (dropOnly b s a)
  | .tryIntoInner => inferInstanceAs (Decidable False)
  | .addGuard i => inferInstanceAs (Decidable (fits b s (.addGuard i)))
  | .clone i j => inferInstanceAs (Decidable (fits b s (.clone i j)))
  | .setThreshold _ | .wait _ | .waitAsync | .poll _ | .dropFuture | .drop
  | .stepOwner _ | .dropGuard _ | .stepGuard _ _ => inferInstanceAs (Decidable True)

end Conditions

/-! ## What the invariant says about who is left -/

section Left

variable [Fintype ι] {b : Nat} {s : St ι κ}

theorem stakes_pos_of_owner (h : s.owner.holds = true) : 0 < s.stakes := by
  rw [OwnerPc.holds_iff] at h
  rw [stakes_eq_sum]
  omega

/-- Nobody has a stake in the block. -/
theorem stakes_eq_zero (howner : s.owner.holds = false) (hguard : ∀ i, (s.guard i).holds = false) :
    s.stakes = 0 := by
  have hzero : ∀ i, (s.guard i).stake = 0 := by
    intro i
    have := hguard i
    generalize s.guard i = pc at this ⊢
    cases pc <;> first | rfl | cases this
  rw [stakes_eq_sum, Finset.sum_eq_zero fun i _ => hzero i]
  cases hpc : s.owner <;> first | rfl | (rw [hpc] at howner; cases howner)

/-- A party that is about to free the block is the only one left. -/
theorem Inv.alone_of_owner (h : Inv b s) (hfree : s.owner.freeing = true) (i : ι) :
    (s.guard i).holds = false := by
  by_contra hne
  rw [Bool.not_eq_false, GuardPc.holds_iff] at hne
  have hlast := h.lastOwner hfree
  have href := OwnerPc.ref_of_freeing hfree
  have := weight_le_sum GuardPc.stake s.guard i
  rw [stakes_eq_sum] at hlast
  omega

/-- A guard that frees is alone. -/
theorem Inv.alone_of_guard [DecidableEq ι] (h : Inv b s) {i : ι}
    (hfree : (s.guard i).freeing = true) :
    s.owner.holds = false ∧ ∀ j, j ≠ i → (s.guard j).holds = false := by
  have hlast := h.lastGuard i hfree
  have hi := (GuardPc.holds_iff _).mp (GuardPc.holds_of_freeing hfree)
  rw [stakes_eq_sum] at hlast
  constructor
  · by_contra hne
    rw [Bool.not_eq_false, OwnerPc.holds_iff] at hne
    have := weight_le_sum GuardPc.stake s.guard i
    omega
  · intro j hj
    by_contra hne
    rw [Bool.not_eq_false, GuardPc.holds_iff] at hne
    have := weight_add_weight_le_sum GuardPc.stake s.guard hj
    omega

omit [Fintype ι] in
/-- `try_into_inner` returns `Ok` only by freeing the block. -/
theorem freed_of_taken [DecidableEq ι] {willWake : κ → κ → Bool} {ok : St ι κ → Act ι κ → Prop}
    (hs : Reach (system b willWake) ok s) : s.owner = .taken → 0 < s.frees := by
  refine hs.invariant (P := fun s => s.owner = .taken → 0 < s.frees) ?_ ?_
  · rintro _ ⟨T, rfl⟩
    nofun
  · intro s a t h _ hstep
    rcases step_cases b willWake hstep with ⟨c, rfl, hown⟩ | ⟨j, c, rfl, hguard⟩ | hcall
    · cases hown with
      | move pc hmove => cases hmove <;> nofun
      | skip w pc => exact fun heq => absurd heq (settled_setOk (b := b) s w).not_taken
      | xor w pc | or w pc =>
        exact fun heq => absurd heq (setFinish_frame (b := b) s w _).2.2.2.not_taken
      | intoFree => exact fun _ => Nat.succ_pos _
      | ret | lock | replace | fresh | destroyCas | destroyFree => nofun
    · cases hguard with
      | free => exact fun _ => Nat.succ_pos _
      | _ => exact h
    · cases hcall with
      | wait | poll | drop | addPanic | tryIntoInner => nofun
      | _ => exact h

end Left

/-! ## Results -/

section Results

variable [Fintype ι] [DecidableEq ι] {b : Nat} {s : St ι κ}

/-- Nobody who may still access the block finds it freed; whoever is about to free it is the only
one who may access it; once nobody may access it, it has been freed exactly once; and nobody
panics. -/
theorem block_freed_once (hb : 1 ≤ b) {willWake : κ → κ → Bool}
    (hs : Reach (system b willWake) (dropOnly b) s) :
    (s.owner.holds = true → s.frees = 0) ∧ (∀ i, (s.guard i).holds = true → s.frees = 0) ∧
      (s.owner.freeing = true → ∀ i, (s.guard i).holds = false) ∧
      (∀ i, (s.guard i).freeing = true →
        s.owner.holds = false ∧ ∀ j, j ≠ i → (s.guard j).holds = false) ∧
      (s.owner.holds = false → (∀ i, (s.guard i).holds = false) → s.frees = 1) ∧
      s.owner ≠ .panicked ∧ ∀ i, s.guard i ≠ .panicked := by
  have h := inv_of_dropOnly hb hs
  refine ⟨fun hown => h.frees_eq (stakes_pos_of_owner hown),
    fun i hi => h.frees_eq (stakes_pos_of_guard hi), h.alone_of_owner,
    fun i hi => h.alone_of_guard hi, fun howner hguard => ?_, fun hpc => ?_, fun i hpc => ?_⟩
  · rw [h.freed, stakes_eq_zero howner hguard]
    rfl
  · have := h.owner
    rw [hpc] at this
    exact this
  · have := h.guard i
    rw [hpc] at this
    exact this

/-- Two guards, one a clone of the other, outlive the owner, whose last wait timed out and left its
waker behind, and the last guard frees the block; or the guard goes first, and the owner, alone
before it frees the block, does. -/
theorem block_freed_by_either :
    (∃ s : St (Fin 2) Nat, Reach (system 62 (· == ·)) (dropOnly 62) s ∧ s.owner = .gone ∧
      (∀ i, s.guard i = .gone) ∧ s.frees = 1) ∧
    ∃ s t : St (Fin 1) Nat, Reach (system 62 (· == ·)) (dropOnly 62) s ∧
      s.owner.freeing = true ∧ (∀ i, (s.guard i).holds = false) ∧
      step 62 (· == ·) s (.stepOwner false) = some t ∧ t.owner = .gone ∧ t.frees = 1 := by
  constructor
  · have hnew : Reach (system 62 (· == ·)) (dropOnly 62) (St.new 0 : St (Fin 2) Nat) :=
      .init ⟨0, rfl⟩
    obtain ⟨s, hs, howner, hguard⟩ := hnew.exists_of_run
      [.addGuard 0, .clone 0 1, .wait true, .stepOwner true, .stepOwner false, .stepOwner false,
        .stepOwner false, .stepOwner false, .stepOwner true, .drop, .stepOwner false,
        .stepOwner false, .dropGuard 0, .stepGuard 0 false, .stepGuard 0 false,
        .stepGuard 0 false, .stepGuard 0 false, .stepGuard 0 false, .dropGuard 1,
        .stepGuard 1 false, .stepGuard 1 false, .stepGuard 1 false]
      (fun s => s.owner = .gone ∧ ∀ i, s.guard i = .gone) (by decide +kernel)
    refine ⟨s, hs, howner, hguard, (block_freed_once (by omega) hs).2.2.2.2.1 ?_ fun i => ?_⟩
    · rw [howner]
      rfl
    · rw [hguard i]
      rfl
  · have hnew : Reach (system 62 (· == ·)) (dropOnly 62) (St.new 0 : St (Fin 1) Nat) :=
      .init ⟨0, rfl⟩
    obtain ⟨s, hs, hfreeing, hlast⟩ := hnew.exists_of_run
      [.addGuard 0, .dropGuard 0, .stepGuard 0 false, .stepGuard 0 false, .drop, .stepOwner false]
      (fun s => s.owner.freeing = true ∧ (step 62 (· == ·) s (.stepOwner false)).map
        (fun t => (t.owner, t.guard 0)) = some (.gone, .gone)) (by decide +kernel)
    obtain ⟨t, hstep, hends⟩ := Option.map_eq_some_iff.mp hlast
    obtain ⟨howner, hguard⟩ := Prod.mk.inj hends
    have ht : Reach (system 62 (· == ·)) (dropOnly 62) t :=
      .step (.stepOwner false) hs trivial hstep
    refine ⟨s, t, hs, hfreeing, (block_freed_once (by omega) hs).2.2.1 hfreeing, hstep, howner,
      (block_freed_once (by omega) ht).2.2.2.2.1 ?_ ?_⟩
    · rw [howner]
      rfl
    · intro i
      rw [Subsingleton.elim i 0, hguard]
      rfl

/-- Once `try_into_inner` has returned `Ok`, the block has been freed once and no guard may access
it. -/
theorem into_inner_safe (hb : 1 ≤ b) {willWake : κ → κ → Bool}
    (hs : Reach (system b willWake) (safeInto b) s) (hpc : s.owner = .taken) :
    s.frees = 1 ∧ ∀ i, (s.guard i).holds = false := by
  have h := inv_of_reach hb hs
  have hfreed := freed_of_taken hs hpc
  have hzero : s.stakes = 0 := by
    by_contra hne
    rw [h.freed, if_neg hne] at hfreed
    omega
  refine ⟨by rw [h.freed, if_pos hzero], fun i => ?_⟩
  by_contra hne
  have := stakes_pos_of_guard (Bool.not_eq_false _ ▸ hne)
  omega

/-- The guard finishes before the wait returns: `try_into_inner` finds the lock released. -/
theorem into_inner_after_done :
    ∃ s : St (Fin 1) Nat, Reach (system 62 (· == ·)) (safeInto 62) s ∧ s.owner = .taken ∧
      s.frees = 1 ∧ (s.guard 0).holds = false := by
  have hnew : Reach (system 62 (· == ·)) (safeInto 62) (St.new 0 : St (Fin 1) Nat) := .init ⟨0, rfl⟩
  obtain ⟨s, hs, hpc⟩ := hnew.exists_of_run
    [.addGuard 0, .wait false, .stepOwner true, .stepOwner false, .stepOwner false,
      .stepOwner false, .stepOwner false, .stepOwner false, .dropGuard 0, .stepGuard 0 false,
      .stepGuard 0 false, .stepGuard 0 false, .stepGuard 0 false, .stepGuard 0 false,
      .stepOwner false, .stepOwner false, .tryIntoInner, .stepOwner false, .stepOwner false]
    (fun s => s.owner = .taken) (by decide +kernel)
  obtain ⟨hfrees, hguard⟩ := into_inner_safe (by omega) hs hpc
  exact ⟨s, hs, hpc, hfrees, hguard 0⟩

/-- A first wait timed out and left its waker in the slot. The guard's compare-exchange brings the
count to the owner's reference and takes the lock; a second wait returns on that count,
`try_into_inner` frees the block, and the guard's next step takes the waker out of the freed
slot. -/
theorem into_inner_under_guard :
    ∃ s : St (Fin 1) Nat, Reachable (system 62 (· == ·)) s ∧ s.owner = .taken ∧ s.frees = 1 ∧
      s.guard 0 = .takeSlot ∧ (step 62 (· == ·) s (.stepGuard 0 false)).isSome = true := by
  have hnew : Reachable (system 62 (· == ·)) (St.new 0 : St (Fin 1) Nat) := .init ⟨0, rfl⟩
  exact hnew.exists_of_run
    [.addGuard 0, .wait true, .stepOwner true, .stepOwner false, .stepOwner false,
      .stepOwner false, .stepOwner false, .stepOwner true, .dropGuard 0, .stepGuard 0 false,
      .stepGuard 0 false, .wait false, .stepOwner false, .tryIntoInner, .stepOwner false,
      .stepOwner false] _ (by decide +kernel)

end Results

end Crossfire.WaitGroup
