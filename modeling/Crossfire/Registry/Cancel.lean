import Crossfire.Lib.Interleaving
import Crossfire.Registry.Multi

/-!
# Cancelled wakers in the queue of a `RegistryMulti`

`waker_registry.rs`: runs of registrations, `commit_waiting` and cancellations, with no `fire` and
no `close`. A cancellation is `cancel_waker`, or `abandon_waker` and the drop of the waker; either
way `_clear_wakers` runs and the waker is gone afterwards.

`_clear_wakers` works from the front of the queue and stops at the first live waker that is not
woken, so a waiter that stays keeps every entry behind it: `cancelled_pile_up` grows the queue with
one waiter only. A cancelled entry stays only as long as every cancellation, its own first, finds an
older waiter registered. These entries are the list `kept`, and `queue_length_le` says that the
queue holds no other ones.
-/

set_option autoImplicit false

namespace Crossfire.Registry.Cancel

open Lib.Interleaving Crossfire.Waker Function

/-- The state and the number of a waker. -/
structure WakerInner where
  state : WakerState
  seq : Nat

/-- The registry, its wakers and who waits. -/
structure St where
  reg : RegistryMulti
  waker : Nat → WakerInner
  /-- Wakers registered so far; they are numbered in this order. -/
  nextWaker : Nat
  /-- Wakers registered and not cancelled, in the order of their registrations. -/
  waiting : List Nat
  /-- Cancelled wakers such that their own cancellation and every later one found an older waker
  registered and not cancelled. -/
  kept : List Nat

/-- `RegistryMulti::new`. -/
def St.new : St := ⟨.new, fun _ => ⟨.init, 0⟩, 0, [], []⟩

/-- What the owners of wakers do. -/
inductive Act
  /-- `reg_waker` of a new waker. -/
  | regWaker
  | commitWaiting (w : Nat)
  | cancelWaker (w : Nat)
  /-- `abandon_waker`, and the drop of the waker. -/
  | abandonWaker (w : Nat)
  deriving DecidableEq, Repr

/-- The waker `w` goes to `state`. -/
def St.setState (s : St) (w : Nat) (state : WakerState) : St :=
  { s with waker := update s.waker w { s.waker w with state := state } }

/-- `_clear_wakers`; the caller still has the waker. -/
def St.clear (s : St) (w : Nat) (oneshot : Bool) : St :=
  { s with
    reg := if s.reg.state.waker then
        s.reg.clearWakers (fun v => s.waiting.contains v) (fun v => u32 (s.waker v).seq)
          (fun v => (s.waker v).state) (u32 (s.waker w).seq) oneshot
      else s.reg
    kept := (w :: s.kept).filter fun d => s.waiting.any (· < d) }

/-- The waker is dropped. -/
def St.drop (s : St) (w : Nat) : St := { s with waiting := s.waiting.erase w }

/-- One action; `none` if it is not possible now. -/
def step (s : St) : Act → Option St
  | .regWaker =>
    some { s with
      reg := s.reg.regWaker s.nextWaker
      waker := update s.waker s.nextWaker ⟨.init, s.reg.seq + 1⟩
      nextWaker := s.nextWaker + 1
      waiting := s.waiting ++ [s.nextWaker] }
  | .commitWaiting w =>
    if w ∈ s.waiting then some (s.setState w (commitWaiting (s.waker w).state).1) else none
  | .cancelWaker w =>
    if w ∈ s.waiting then
      some (if (s.waker w).state.isWoken then s.drop w else (s.clear w true).drop w)
    else none
  | .abandonWaker w =>
    if w ∈ s.waiting then
      -- `change_state_smaller_eq(Waiting, Closed)`
      if (s.waker w).state.isWoken then some (s.drop w)
      else some (((s.setState w .closed).clear w false).drop w)
    else none

/-- An empty registry, and the actions of the owners. -/
def system : System St Act where
  init s := s = .new
  step := step

/-! ## Entries without a waker -/

/-- The queue is in the order of the registrations, and every entry in it is that of a waiter or of
a cancelled waker that is kept. -/
structure Inv (s : St) : Prop where
  mirrors : s.reg.Mirrors
  sorted : s.reg.queue.Pairwise (· < ·)
  registered : ∀ w ∈ s.reg.queue, w < s.nextWaker
  nodup : s.waiting.Nodup
  known : ∀ w ∈ s.waiting, w < s.nextWaker
  state : ∀ w ∈ s.waiting, (s.waker w).state.isWoken = false
  entries : ∀ w ∈ s.reg.queue, w ∈ s.waiting ∨ w ∈ s.kept

section Steps

variable {s t : St} {w : Nat}

/-- The loop ends at a live entry, so a dead entry that it leaves has a live one before it; and so
has the entry of the waker itself, which the loop removes when it is the first live one. -/
theorem exists_older_of_mem_clearQueue {alive : Nat → Bool} {seq : Nat → Nat}
    {state : Nat → WakerState} {oneshot : Bool} {w d : Nat} {q : List Nat}
    (hsorted : q.Pairwise (· < ·)) (hd : alive d = true → d = w)
    (hmem : d ∈ RegistryMulti.clearQueue alive seq state (seq w) oneshot q) :
    ∃ v ∈ q, alive v = true ∧ v < d := by
  induction q with
  | nil => cases hmem
  | cons v rest ih =>
    obtain ⟨hfirst, hrest⟩ := List.pairwise_cons.mp hsorted
    cases hv : alive v with
    | false =>
      rw [RegistryMulti.clearQueue, hv] at hmem
      obtain ⟨u, hu, hfound⟩ := ih hrest hmem
      exact ⟨u, List.mem_cons_of_mem v hu, hfound⟩
    | true =>
      refine ⟨v, List.mem_cons_self, hv, hfirst d ?_⟩
      have hmem' := (RegistryMulti.clearQueue_sublist alive seq state (seq w) oneshot
        (v :: rest)).subset hmem
      rcases List.mem_cons.mp hmem' with rfl | hlater
      · -- the waker itself, which is taken out
        obtain rfl := hd hv
        rw [RegistryMulti.clearQueue, hv] at hmem
        simpa using hmem
      · exact hlater

theorem clear_queue_sublist (w : Nat) (oneshot : Bool) :
    (s.clear w oneshot).reg.queue.Sublist s.reg.queue := by
  simp only [St.clear]
  split_ifs
  · rw [RegistryMulti.clearWakers, RegistryMulti.popped_queue]
    all_goals exact RegistryMulti.clearQueue_sublist _ _ _ _ _ _
  · exact List.Sublist.refl _

/-- What a clean-up leaves without a waiter has an older waiter before it. -/
theorem Inv.exists_older (h : Inv s) (hreg : t.reg = s.reg) (hwaiting : t.waiting = s.waiting)
    {oneshot : Bool} {d : Nat} (hd : d ∈ s.waiting → d = w)
    (hmem : d ∈ (t.clear w oneshot).reg.queue) : ∃ v ∈ s.waiting, v < d := by
  simp only [St.clear] at hmem
  split_ifs at hmem with hflag
  · rw [RegistryMulti.clearWakers, RegistryMulti.popped_queue
      (RegistryMulti.clearQueue_sublist _ _ _ _ _ _)] at hmem
    obtain ⟨v, _, hv, hlt⟩ := exists_older_of_mem_clearQueue (w := w) (by rw [hreg]; exact h.sorted)
      (by rw [hwaiting]; simpa using hd) hmem
    rw [hwaiting] at hv
    exact ⟨v, by simpa using hv, hlt⟩
  · -- the byte says that the queue is empty
    rw [hreg, h.mirrors] at hflag
    have hempty : s.reg.queue = [] := by simpa using hflag
    rw [hreg, hempty] at hmem
    cases hmem

/-- The clean-up and the drop at the end of a cancellation. -/
theorem Inv.cancel (h : Inv s) (hreg : t.reg = s.reg) (hnext : t.nextWaker = s.nextWaker)
    (hwaiting : t.waiting = s.waiting) (hkept : t.kept = s.kept)
    (hstate : ∀ v ∈ s.waiting, v ≠ w → (t.waker v).state.isWoken = false) (oneshot : Bool) :
    Inv ((t.clear w oneshot).drop w) := by
  have hsub : (t.clear w oneshot).reg.queue.Sublist s.reg.queue := hreg ▸ clear_queue_sublist w _
  have herase : ((t.clear w oneshot).drop w).waiting = s.waiting.erase w :=
    congrArg (List.erase · w) hwaiting
  refine ⟨?_, h.sorted.sublist hsub, ?_, ?_, ?_, ?_, ?_⟩
  · show (t.clear w oneshot).reg.Mirrors
    simp only [St.clear, hreg]
    split_ifs
    · exact h.mirrors.popped
    · exact h.mirrors
  · intro v hv
    exact hnext ▸ h.registered v (hsub.subset hv)
  · rw [herase]
    exact h.nodup.erase w
  · intro v hv
    rw [herase] at hv
    exact hnext ▸ h.known v (List.mem_of_mem_erase hv)
  · intro v hv
    rw [herase] at hv
    obtain ⟨hne, hmem⟩ := h.nodup.mem_erase_iff.mp hv
    exact hstate v hmem hne
  · intro d hd
    rw [herase, h.nodup.mem_erase_iff]
    by_cases hwaits : d ∈ s.waiting ∧ d ≠ w
    · exact .inl ⟨hwaits.2, hwaits.1⟩
    · have hdw : d ∈ s.waiting → d = w := fun hmem => by_contra fun hne => hwaits ⟨hmem, hne⟩
      obtain ⟨v, hv, hlt⟩ := h.exists_older hreg hwaiting hdw hd
      refine .inr (List.mem_filter.mpr ⟨?_, List.any_eq_true.mpr ⟨v, hwaiting ▸ hv, ?_⟩⟩)
      · rw [hkept]
        rcases h.entries d (hsub.subset hd) with hmem | hmem
        · exact List.mem_cons.mpr (.inl (hdw hmem))
        · exact List.mem_cons_of_mem w hmem
      · exact decide_eq_true hlt

/-- A waker is registered. -/
theorem Inv.register (h : Inv s) :
    Inv { s with
      reg := s.reg.regWaker s.nextWaker
      waker := update s.waker s.nextWaker ⟨.init, s.reg.seq + 1⟩
      nextWaker := s.nextWaker + 1
      waiting := s.waiting ++ [s.nextWaker] } := by
  have hfresh : s.nextWaker ∉ s.waiting := fun hmem => Nat.lt_irrefl _ (h.known _ hmem)
  refine ⟨h.mirrors.regWaker _, ?_, ?_, ?_, ?_, ?_, ?_⟩
  · exact List.pairwise_append.mpr ⟨h.sorted, List.pairwise_singleton _ _, by
      intro v hv u hu
      rw [List.mem_singleton.mp hu]
      exact h.registered v hv⟩
  · intro v hv
    rcases List.mem_append.mp hv with hv | hv
    · exact Nat.lt_succ_of_lt (h.registered v hv)
    · rw [List.mem_singleton.mp hv]
      exact Nat.lt_succ_self _
  · refine List.nodup_append.mpr ⟨h.nodup, List.nodup_singleton _, ?_⟩
    intro v hv u hu heq
    rw [List.mem_singleton.mp hu] at heq
    exact hfresh (heq ▸ hv)
  · intro v hv
    rcases List.mem_append.mp hv with hv | hv
    · exact Nat.lt_succ_of_lt (h.known v hv)
    · rw [List.mem_singleton.mp hv]
      exact Nat.lt_succ_self _
  · intro v hv
    rcases List.mem_append.mp hv with hv | hv
    · have hne : v ≠ s.nextWaker := fun heq => hfresh (heq ▸ hv)
      simpa [hne] using h.state v hv
    · rw [List.mem_singleton.mp hv]
      simp [WakerState.isWoken, WakerState.toNat]
  · intro v hv
    rcases List.mem_append.mp hv with hv | hv
    · exact (h.entries v hv).imp_left (List.mem_append_left _)
    · exact .inl (List.mem_append_right _ hv)

/-- A waker is committed. -/
theorem Inv.commit (h : Inv s) (hw : w ∈ s.waiting) :
    Inv (s.setState w (commitWaiting (s.waker w).state).1) := by
  refine ⟨h.mirrors, h.sorted, h.registered, h.nodup, h.known, fun v hv => ?_, h.entries⟩
  by_cases hvw : v = w
  · subst hvw
    have hbefore := h.state v hv
    simp only [St.setState, update_self]
    cases hstate : (s.waker v).state with
    | init => rfl
    | waiting => rfl
    | woken | closed | done => rw [hstate] at hbefore; cases hbefore
  · simpa [St.setState, hvw] using h.state v hv

/-- **Every action keeps the invariant.** -/
theorem Inv.step {a : Act} (h : Inv s) (hstep : step s a = some t) : Inv t := by
  cases a with
  | regWaker =>
    cases hstep
    exact h.register
  | commitWaiting w =>
    simp only [Cancel.step] at hstep
    split_ifs at hstep with hw
    cases hstep
    exact h.commit hw
  | cancelWaker w =>
    simp only [Cancel.step] at hstep
    split_ifs at hstep with hw hwoken
    · rw [h.state w hw] at hwoken
      cases hwoken
    · cases hstep
      exact h.cancel rfl rfl rfl rfl (fun v hv _ => h.state v hv) true
  | abandonWaker w =>
    simp only [Cancel.step] at hstep
    split_ifs at hstep with hw hwoken
    · rw [h.state w hw] at hwoken
      cases hwoken
    · cases hstep
      refine h.cancel (t := s.setState w .closed) rfl rfl rfl rfl (fun v hv hne => ?_) false
      simpa [St.setState, hne] using h.state v hv

end Steps

theorem inv_of_reachable {s : St} (h : Reachable system s) : Inv s := by
  refine h.invariant ?_ fun s a t hs _ hstep => hs.step hstep
  rintro s rfl
  exact ⟨rfl, .nil, nofun, .nil, nofun, nofun, nofun⟩

/-- Every entry of the queue is that of a waker registered and not cancelled, or of a cancelled one
that is kept: every cancellation since its own has found an older waiter. So the queue is never
longer than the two lists together. -/
theorem queue_length_le {s : St} (h : Reachable system s) :
    (∀ w ∈ s.reg.queue, w ∈ s.waiting ∨ w ∈ s.kept) ∧
      s.reg.queue.length ≤ s.waiting.length + s.kept.length := by
  have hinv := inv_of_reachable h
  have hnodup : s.reg.queue.Nodup := hinv.sorted.imp fun hlt => Nat.ne_of_lt hlt
  refine ⟨hinv.entries, ?_⟩
  rw [← List.length_append]
  exact (hnodup.subperm fun w hw => List.mem_append.mpr (hinv.entries w hw)).length_le

/-- With a waiter in front, every cancellation leaves its entry: three entries for one waiter. -/
theorem cancelled_pile_up :
    ∃ s, Reachable system s ∧ s.waiting.length = 1 ∧ s.waiting.length + 1 < s.reg.queue.length := by
  have hnew : Reachable system St.new := .init rfl
  exact hnew.exists_of_run
    [.regWaker, .commitWaiting 0, .regWaker, .commitWaiting 1, .abandonWaker 1, .regWaker,
      .cancelWaker 2] _ (by decide +kernel)

/-- Two entries stay behind a waiter, also when it is cancelled itself. The next cancellation finds
no waiter before them and takes them out; its own entry stays behind a new waiter. -/
theorem queue_length_le_cleared :
    ∃ s, Reachable system s ∧ s.reg.queue = [3, 4] ∧ s.waiting = [3] ∧ s.kept = [4] ∧
      (∀ w ∈ s.reg.queue, w ∈ s.waiting ∨ w ∈ s.kept) ∧
      s.reg.queue.length ≤ s.waiting.length + s.kept.length := by
  have hnew : Reachable system St.new := .init rfl
  obtain ⟨s, hs, hqueue, hwaiting, hkept⟩ := hnew.exists_of_run
    [.regWaker, .commitWaiting 0, .regWaker, .abandonWaker 1, .regWaker, .cancelWaker 2,
      .abandonWaker 0, .regWaker, .commitWaiting 3, .regWaker, .cancelWaker 4]
    (fun s => s.reg.queue = [3, 4] ∧ s.waiting = [3] ∧ s.kept = [4]) (by decide +kernel)
  exact ⟨s, hs, hqueue, hwaiting, hkept, queue_length_le hs⟩

end Crossfire.Registry.Cancel
