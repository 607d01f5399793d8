import Mathlib.Algebra.BigOperators.Group.Finset.Basic
import Mathlib.Data.Fintype.Basic
import Mathlib.Algebra.Order.BigOperators.Group.Finset

/-!
# Interleaved runs of a partial step function

A `System` has initial states and a partial step function: `step s a = some t` when the action `a`
is enabled in `s` and leads to `t`. One action is one atomic operation of one party, so the runs of
the system are the interleavings of the parties.

`Reach M ok s` says that a run from an initial state ends in `s` and that every step of it satisfied
`ok` in the state it was taken from. An invariant is proved once, from the initial states and one
step (`Reach.invariant`). A concrete schedule is replayed by `run`, and `Reach.of_run` lifts the
replay to reachability. Two replays of one schedule are compared by `replay_lockstep`.

History counters are added to a system by `System.tally`; `Reach.tally_eq` says when a size is the
balance of what the steps add and remove.

A step of one party changes its phase and leaves the others alone (`map_update`, `forall_update`).
The last section counts the parties in a given phase by a sum of weights; a step of one party
changes one summand (`sum_update`).
-/

set_option autoImplicit false

namespace Crossfire.Lib.Interleaving

open Function

universe u v

variable {σ : Type u} {α : Type v}

/-- Initial states and a partial step function. -/
structure System (σ : Type u) (α : Type v) where
  init : σ → Prop
  step : σ → α → Option σ

/-- States at the end of a run all of whose steps satisfy `ok`. -/
inductive Reach (M : System σ α) (ok : σ → α → Prop) : σ → Prop
  | init {s : σ} : M.init s → Reach M ok s
  | step {s t : σ} (a : α) : Reach M ok s → ok s a → M.step s a = some t → Reach M ok t

/-- States at the end of any run. -/
abbrev Reachable (M : System σ α) : σ → Prop := Reach M fun _ _ => True

/-- A property of the initial states that every permitted step preserves holds at the end of every
permitted run. -/
theorem Reach.invariant {M : System σ α} {ok : σ → α → Prop} {P : σ → Prop}
    (hinit : ∀ s, M.init s → P s)
    (hstep : ∀ s a t, P s → ok s a → M.step s a = some t → P t) {s : σ} (h : Reach M ok s) :
    P s := by
  induction h with
  | init hs => exact hinit _ hs
  | step a _ hok hst ih => exact hstep _ a _ ih hok hst

/-- Weakening the condition on the steps keeps every run. -/
theorem Reach.mono {M : System σ α} {ok ok' : σ → α → Prop}
    (himp : ∀ s a, ok s a → ok' s a) {s : σ} (h : Reach M ok s) : Reach M ok' s := by
  induction h with
  | init hs => exact .init hs
  | step a _ hok hst ih => exact .step a ih (himp _ _ hok) hst

/-- If one round takes what holds after `n` rounds to what holds after `n + 1`, any number of rounds
can follow. -/
theorem exists_rounds {P : Nat → σ → Prop} (hround : ∀ n s, P n s → ∃ t, P (n + 1) t) {n m : Nat}
    {s : σ} (h : P n s) (hnm : n ≤ m) : ∃ t, P m t := by
  induction m, hnm using Nat.le_induction with
  | base => exact ⟨s, h⟩
  | succ m _ ih =>
    obtain ⟨t, ht⟩ := ih
    exact hround m t ht

/-- Replay of a schedule; it stops with `none` at a disabled action or at one that violates `ok`. -/
def run (M : System σ α) (ok : σ → α → Prop) [∀ s a, Decidable (ok s a)] : σ → List α → Option σ
  | s, [] => some s
  | s, a :: rest => if ok s a then (M.step s a).bind fun t => run M ok t rest else none

/-- A replayed schedule is a run. -/
theorem Reach.of_run {M : System σ α} {ok : σ → α → Prop} [∀ s a, Decidable (ok s a)] :
    ∀ {l : List α} {s t : σ}, Reach M ok s → run M ok s l = some t → Reach M ok t := by
  intro l
  induction l with
  | nil =>
    intro s t hs h
    simp only [run, Option.some.injEq] at h
    exact h ▸ hs
  | cons a rest ih =>
    intro s t hs h
    by_cases hok : ok s a
    · simp only [run, hok, if_true] at h
      cases hst : M.step s a with
      | none => simp [hst] at h
      | some s' =>
        simp only [hst, Option.bind_some] at h
        exact ih (.step a hs hok hst) h
    · simp [run, hok] at h

/-- A schedule whose replay ends in a state with `P` reaches such a state. -/
theorem Reach.exists_of_run {M : System σ α} {ok : σ → α → Prop} [∀ s a, Decidable (ok s a)]
    {s : σ} (hs : Reach M ok s) (l : List α) (P : σ → Prop) [DecidablePred P]
    (h : (run M ok s l).map (fun t => decide (P t)) = some true) : ∃ t, Reach M ok t ∧ P t := by
  cases hr : run M ok s l with
  | none => simp [hr] at h
  | some t =>
    simp only [hr, Option.map_some, Option.some.injEq] at h
    exact ⟨t, hs.of_run hr, of_decide_eq_true h⟩

/-! ## Replays without a condition -/

section Replay

/-- Replay of a schedule; it stops with `none` at a disabled action. -/
def replay (M : System σ α) : σ → List α → Option σ
  | s, [] => some s
  | s, a :: rest => (M.step s a).bind fun t => replay M t rest

/-- A replayed schedule is a run. -/
theorem Reach.of_replay {M : System σ α} {acts : List α} {s t : σ} (hs : Reachable M s)
    (h : replay M s acts = some t) : Reachable M t := by
  induction acts generalizing s with
  | nil => cases h; exact hs
  | cons a rest ih =>
    obtain ⟨u, hu, hrest⟩ := Option.bind_eq_some_iff.mp h
    exact ih (.step a hs trivial hu) hrest

/-- The first thing that a step of a schedule sees. -/
def firstSeen {β : Type*} (M : System σ α) (look : σ → α → Option β) : σ → List α → Option β
  | _, [] => none
  | s, a :: rest => (look s a).or ((M.step s a).bind fun t => firstSeen M look t rest)

/-- A relation that every action of a schedule keeps, enabled on one side only if it is enabled on
the other, is kept by the schedule. The relation may depend on the first thing seen so far. -/
theorem replay_lockstep {β : Type*} {M : System σ α} (look : σ → α → Option β)
    {R : Option β → σ → σ → Prop} {acts : List α}
    (hstep : ∀ a ∈ acts, ∀ o s₁ s₂ t₁, R o s₁ s₂ → M.step s₁ a = some t₁ →
      ∃ t₂, M.step s₂ a = some t₂ ∧ R (o.or (look s₁ a)) t₁ t₂)
    {o : Option β} {s₁ s₂ t₁ : σ} (hR : R o s₁ s₂) (h : replay M s₁ acts = some t₁) :
    ∃ t₂, replay M s₂ acts = some t₂ ∧ R (o.or (firstSeen M look s₁ acts)) t₁ t₂ := by
  induction acts generalizing o s₁ s₂ with
  | nil =>
    cases h
    exact ⟨s₂, rfl, by rwa [firstSeen, Option.or_none]⟩
  | cons a rest ih =>
    obtain ⟨u₁, hu₁, hrest⟩ := Option.bind_eq_some_iff.mp h
    obtain ⟨u₂, hu₂, hR'⟩ := hstep a (List.mem_cons_self ..) o s₁ s₂ u₁ hR hu₁
    obtain ⟨t₂, ht₂, hRt⟩ := ih (fun b hb => hstep b (List.mem_cons_of_mem _ hb)) hR' hrest
    refine ⟨t₂, ?_, ?_⟩
    · rw [replay, hu₂, Option.bind_some, ht₂]
    · rwa [firstSeen, hu₁, Option.bind_some, ← Option.or_assoc]

end Replay

/-! ## History counters -/

section Tally

variable {M : System σ α} {ok : σ → α → Prop} {adds removes : σ → α → Nat}

/-- The system with two counters that sum up what the actions add and what they remove. -/
def System.tally (M : System σ α) (adds removes : σ → α → Nat) : System (σ × Nat × Nat) α where
  init p := M.init p.1 ∧ p.2 = (0, 0)
  step p a := (M.step p.1 a).map fun t => (t, p.2.1 + adds p.1 a, p.2.2 + removes p.1 a)

theorem System.tally_step {p q : σ × Nat × Nat} {a : α}
    (h : (M.tally adds removes).step p a = some q) :
    M.step p.1 a = some q.1 ∧ q.2 = (p.2.1 + adds p.1 a, p.2.2 + removes p.1 a) := by
  simp only [tally, Option.map_eq_some_iff] at h
  obtain ⟨t, hstep, rfl⟩ := h
  exact ⟨hstep, rfl⟩

/-- The counters do not restrict the runs. -/
theorem Reach.of_tally {p : σ × Nat × Nat}
    (h : Reach (M.tally adds removes) (fun p a => ok p.1 a) p) : Reach M ok p.1 := by
  induction h with
  | init hp => exact .init hp.1
  | step a _ hok hstep ih => exact .step a ih hok (System.tally_step hstep).1

/-- If every step changes a size by what it adds and removes, the size is the balance of the run. -/
theorem Reach.tally_eq {size : σ → Nat} {start : Nat} (hinit : ∀ s, M.init s → size s = start)
    (hstep : ∀ s a t, Reach M ok s → ok s a → M.step s a = some t →
      size t + removes s a = size s + adds s a)
    {p : σ × Nat × Nat} (h : Reach (M.tally adds removes) (fun p a => ok p.1 a) p) :
    size p.1 + p.2.2 = start + p.2.1 := by
  induction h with
  | init hp =>
    rw [hp.2, hinit _ hp.1]
  | step a hp hok hst ih =>
    obtain ⟨hst, hcounters⟩ := System.tally_step hst
    have := hstep _ a _ hp.of_tally hok hst
    rw [hcounters]
    omega

/-- A size that every step changes by what it adds, and that is never removed from. -/
theorem Reach.added_eq (size : σ → Nat) (hinit : ∀ s, M.init s → size s = 0)
    (hstep : ∀ s a t, Reach M ok s → ok s a → M.step s a = some t → size t = size s + adds s a)
    {p : σ × Nat × Nat} (h : Reach (M.tally adds fun _ _ => 0) (fun p a => ok p.1 a) p) :
    p.2.1 = size p.1 := by
  induction h with
  | init hp => rw [hp.2, hinit _ hp.1]
  | step a hp hok hst ih =>
    obtain ⟨hst, hcounters⟩ := System.tally_step hst
    rw [hcounters, hstep _ a _ hp.of_tally hok hst, ih]

end Tally

/-! ## One party moves -/

section Update

variable {ι : Type u} {π : Type v} [DecidableEq ι] {g : ι → π} {i : ι} {p : π}

/-- What is read off the phase of every party, after one of them has moved. -/
theorem map_update {β : Type*} (f : π → β) (i : ι) (p : π) :
    (fun j => f (update g i p j)) = update (fun j => f (g j)) i (f p) := by
  funext j
  by_cases hj : j = i
  · subst hj
    simp
  · simp [hj]

theorem map_update_of_eq {β : Type*} {f : π → β} (h : f p = f (g i)) :
    (fun j => f (update g i p j)) = fun j => f (g j) := by
  rw [map_update, h]
  exact update_eq_self i fun j => f (g j)

/-- A field that the move leaves alone. -/
theorem field_update {β : Type*} (f : π → β) (h : f p = f (g i)) (j : ι) :
    f (update g i p j) = f (g j) :=
  congrFun (map_update_of_eq h) j

/-- A property of the phase of every party, after one of them has moved. -/
theorem forall_update {P : ι → π → Prop} (h : ∀ j, j ≠ i → P j (g j)) (hi : P i p) (j : ι) :
    P j (update g i p j) := by
  by_cases hj : j = i
  · subst hj
    rwa [update_self]
  · rw [update_of_ne hj]
    exact h j hj

theorem forall_phase {P : π → Prop} (h : ∀ j, j ≠ i → P (g j)) (hi : P p) (j : ι) :
    P (update g i p j) :=
  forall_update (P := fun _ => P) h hi j

end Update

/-! ## Counting the parties in a phase -/

section Count

variable {ι : Type u} {π : Type v} [Fintype ι] [DecidableEq ι]

/-- A step of one party changes one summand. -/
theorem sum_update (weight : π → Nat) (f : ι → π) (i : ι) (p : π) :
    (∑ j, weight (update f i p j)) + weight (f i) = (∑ j, weight (f j)) + weight p := by
  have hsplit : ∀ g : ι → π, (∑ j, weight (g j)) =
      weight (g i) + ∑ j ∈ Finset.univ.erase i, weight (g j) := fun g =>
    (Finset.add_sum_erase Finset.univ (fun j => weight (g j)) (Finset.mem_univ i)).symm
  have hrest : ∑ j ∈ Finset.univ.erase i, weight (update f i p j) =
      ∑ j ∈ Finset.univ.erase i, weight (f j) := by
    refine Finset.sum_congr rfl fun j hj => ?_
    rw [update_of_ne (Finset.ne_of_mem_erase hj)]
  rw [hsplit (update f i p), hsplit f, hrest, update_self]
  omega

omit [DecidableEq ι] in
/-- A party weighs at most the whole sum. -/
theorem weight_le_sum (weight : π → Nat) (f : ι → π) (i : ι) : weight (f i) ≤ ∑ j, weight (f j) :=
  Finset.single_le_sum (f := fun j => weight (f j)) (fun _ _ => Nat.zero_le _) (Finset.mem_univ i)

/-- Two distinct parties weigh at most the whole sum. -/
theorem weight_add_weight_le_sum (weight : π → Nat) (f : ι → π) {i j : ι} (hij : i ≠ j) :
    weight (f i) + weight (f j) ≤ ∑ k, weight (f k) := by
  have hpair : ∑ k ∈ ({i, j} : Finset ι), weight (f k) = weight (f i) + weight (f j) :=
    Finset.sum_pair hij
  rw [← hpair]
  exact Finset.sum_le_sum_of_subset (Finset.subset_univ _)

omit [DecidableEq ι] in
/-- A vanishing sum has vanishing summands. -/
theorem weight_eq_zero_of_sum (weight : π → Nat) (f : ι → π) (h : (∑ j, weight (f j)) = 0) (i : ι) :
    weight (f i) = 0 := by
  have := weight_le_sum weight f i
  omega

omit [DecidableEq ι] in
/-- A positive sum has a positive summand. -/
theorem exists_weight_pos (weight : π → Nat) (f : ι → π) (h : 0 < ∑ j, weight (f j)) :
    ∃ i, 0 < weight (f i) := by
  obtain ⟨i, _, hi⟩ := Finset.exists_ne_zero_of_sum_ne_zero (Nat.pos_iff_ne_zero.mp h)
  exact ⟨i, Nat.pos_of_ne_zero hi⟩

end Count

end Crossfire.Lib.Interleaving
