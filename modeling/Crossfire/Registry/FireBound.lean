import Crossfire.Registry.Fire

/-!
# How many wakers one `fire` pops

`fire` runs among threads that register wakers between its sections: a sink or a stream stays in
`Init` and registers again as soon as it is woken. The loop ends because what is registered while it
runs has a number above the counter it holds (`InLoop`), and a popped waker with such a number stops
it. With 32-bit numbers this holds as long as the counter does not come around during the call.
-/

set_option autoImplicit false

namespace Crossfire.Registry.Fire

open Lib.Interleaving Crossfire.Waker Function

/-- The counter the call holds, once `pop_first` left more entries. -/
def FirePc.holds : FirePc → Option Nat
  | .wake _ _ (.first last) | .wake _ _ (.again last) | .seqCheck _ last | .again last
  | .againLock last => some last
  | .first | .firstLock _ | .wake _ _ .stop | .returned _ => none

/-- The 32-bit counter is not 0 when `pop_first` takes the lock, and does not come around to 0 while
the call holds it. -/
def wrapOk (s : St) : Act → Prop
  | .fire _ =>
    match s.pc with
    | .firstLock _ => u32 s.reg.seq ≠ 0
    | _ => True
  | .regWaker _ => s.pc.holds.isSome → u32 (s.reg.seq + 1) ≠ 0
  | .remove _ | .setState _ _ | .dropWaker _ => True

instance (s : St) : ∀ a, Decidable (wrapOk s a)
  | .fire _ => by
      unfold wrapOk
      cases s.pc <;> infer_instance
  | .regWaker _ => inferInstanceAs (Decidable (_ → _))
  | .remove _ | .setState _ _ | .dropWaker _ => instDecidableTrue

/-- Number `n` was given out after the call took the counter `last`. -/
structure Later (s : St) (last n : Nat) : Prop where
  gt : last < n
  le : n ≤ s.reg.seq

/-- The counter has not come around since the call took `last`. -/
structure Holds (s : St) (last : Nat) : Prop where
  nonzero : u32 last ≠ 0
  le : last ≤ s.reg.seq
  block : s.reg.seq / 2 ^ 32 = last / 2 ^ 32

/-- The queue is what is left of the entries that `pop_first` saw, and then entries registered
later. -/
structure InLoop (s : St) (last : Nat) : Prop extends Holds s last where
  split : ∃ old new, s.reg.queue = old ++ new ∧ old.length + s.pops ≤ s.entries ∧
    ∀ w ∈ new, Later s last (s.waker w).seq

/-- The call has popped a waker that was registered later. -/
structure AtLater (s : St) (w last : Nat) : Prop extends Holds s last where
  later : Later s last (s.waker w).seq
  pops : s.pops ≤ s.entries + 1

/-- What holds at a program counter of the call. -/
def Phase (s : St) : FirePc → Prop
  | .first | .firstLock _ => s.pops = 0
  | .wake _ _ .stop => s.pops ≤ s.entries + 1
  | .wake _ _ (.first last) | .again last | .againLock last => InLoop s last
  | .wake w _ (.again last) | .seqCheck w last => InLoop s last ∨ AtLater s w last
  | .returned _ => s.pops ≤ s.entries + 1

/-- A number given out later stops the loop. -/
theorem Holds.lastSeq_le {s : St} {last n : Nat} (h : Holds s last) (hn : Later s last n) :
    lastSeq last ≤ u32 n := by
  have hnonzero := h.nonzero
  have hblock := h.block
  have hgt := hn.gt
  have hle := hn.le
  simp only [lastSeq, u32] at hnonzero ⊢
  have hsame : n / 2 ^ 32 = last / 2 ^ 32 := by
    have hlow : last / 2 ^ 32 ≤ n / 2 ^ 32 := Nat.div_le_div_right hgt.le
    have hhigh : n / 2 ^ 32 ≤ s.reg.seq / 2 ^ 32 := Nat.div_le_div_right hle
    omega
  omega

section Steps

variable {s t : St} {w last : Nat} {after : After}

theorem InLoop.pops_le (h : InLoop s last) : s.pops ≤ s.entries := by
  obtain ⟨old, new, _, hpops, _⟩ := h.split
  omega

variable {pc : FirePc}

/-- Every phase keeps within the bound. -/
theorem Phase.pops_le (h : Phase s pc) : s.pops ≤ s.entries + 1 := by
  cases pc with
  | first | firstLock flag =>
    have hzero : s.pops = 0 := h
    omega
  | wake w pc after =>
    cases after with
    | stop => exact h
    | first last => exact Nat.le_succ_of_le (InLoop.pops_le h)
    | again last =>
      rcases h with h | h
      · exact Nat.le_succ_of_le h.pops_le
      · exact h.pops
  | seqCheck w last =>
    rcases h with h | h
    · exact Nat.le_succ_of_le h.pops_le
    · exact h.pops
  | again last | againLock last => exact Nat.le_succ_of_le (InLoop.pops_le h)
  | returned result => exact h

/-! ## Steps that leave the queue and the numbers alone -/

/-- The parts of the state that the phases speak about. -/
structure SameCount (s t : St) : Prop where
  reg : t.reg = s.reg
  seq : ∀ w, (t.waker w).seq = (s.waker w).seq
  pops : t.pops = s.pops
  entries : t.entries = s.entries

theorem SameCount.holds (h : SameCount s t) (hs : Holds s last) : Holds t last :=
  ⟨hs.nonzero, h.reg ▸ hs.le, h.reg ▸ hs.block⟩

theorem SameCount.later (h : SameCount s t) (hs : Later s last (s.waker w).seq) :
    Later t last (t.waker w).seq := by
  rw [h.seq]
  exact ⟨hs.gt, h.reg ▸ hs.le⟩

theorem SameCount.inLoop (h : SameCount s t) (hs : InLoop s last) : InLoop t last := by
  obtain ⟨old, new, hqueue, hpops, hnew⟩ := hs.split
  refine ⟨h.holds hs.toHolds, old, new, h.reg ▸ hqueue, ?_, fun w hw => h.later (hnew w hw)⟩
  rw [h.pops, h.entries]
  exact hpops

theorem SameCount.atLater (h : SameCount s t) (hs : AtLater s w last) : AtLater t w last := by
  refine ⟨h.holds hs.toHolds, h.later hs.later, ?_⟩
  rw [h.pops, h.entries]
  exact hs.pops

/-- A step that registers nobody. -/
theorem SameCount.phase (h : SameCount s t) (hs : Phase s pc) : Phase t pc := by
  have hbound : s.pops ≤ s.entries + 1 → t.pops ≤ t.entries + 1 := by
    rw [h.pops, h.entries]
    exact id
  cases pc with
  | first | firstLock flag => exact h.pops.trans hs
  | wake w pc after =>
    cases after with
    | stop => exact hbound hs
    | first last => exact h.inLoop hs
    | again last => exact hs.imp h.inLoop h.atLater
  | seqCheck w last => exact hs.imp h.inLoop h.atLater
  | again last | againLock last => exact h.inLoop hs
  | returned result => exact hbound hs

theorem SameCount.goto (h : SameCount s t) (pc : FirePc) : SameCount s (t.goto pc) :=
  ⟨h.reg, h.seq, h.pops, h.entries⟩

theorem SameCount.refl (s : St) : SameCount s s := ⟨rfl, fun _ => rfl, rfl, rfl⟩

theorem sameCount_setState (s : St) (w : Nat) (state : WakerState) :
    SameCount s (s.setState w state) :=
  ⟨rfl, field_update WakerInner.seq (by rfl), rfl, rfl⟩

theorem sameCount_dropWaker (s : St) (w : Nat) : SameCount s (s.dropWaker w) :=
  ⟨rfl, field_update WakerInner.seq (by rfl), rfl, rfl⟩

/-! ## The steps of the call -/

/-- `wake` leads on within the phase, or to what follows it. -/
theorem Phase.wakeNext {pc pc' : WakePc} (h : Phase s (.wake w pc after)) :
    Phase s (wakeNext w after pc') := by
  have hbound : s.pops ≤ s.entries + 1 := h.pops_le
  have hafter : ∀ result, Phase s (afterWake w after result) := by
    intro result
    unfold afterWake
    split_ifs
    · exact hbound
    · cases after with
      | stop => exact hbound
      | first | again => exact h
  cases pc' with
  | returned result => exact hafter result
  | load | store | cas | wakeByRef result => cases after <;> exact h

/-- The popped waker is one of the entries that `pop_first` saw, or it came later. -/
theorem InLoop.pop (h : InLoop s last) {r : RegistryMulti}
    (hpop : s.reg.popAgain s.alive = (some w, r)) :
    InLoop { s with reg := r, pops := s.pops + 1, pc := pc } last ∨
      AtLater { s with reg := r, pops := s.pops + 1, pc := pc } w last := by
  obtain ⟨⟨dead, hqueue, _⟩, hseq⟩ := RegistryMulti.popAgain_some hpop
  obtain ⟨old, new, hsplit, hpops, hnew⟩ := h.split
  have hholds : Holds { s with reg := r, pops := s.pops + 1, pc := pc } last :=
    ⟨h.nonzero, hseq ▸ h.le, hseq ▸ h.block⟩
  have hlater : ∀ v ∈ new,
      Later { s with reg := r, pops := s.pops + 1, pc := pc } last (s.waker v).seq :=
    fun v hv => ⟨(hnew v hv).gt, hseq ▸ (hnew v hv).le⟩
  have hcome : w ∈ new → AtLater { s with reg := r, pops := s.pops + 1, pc := pc } w last :=
    fun hw => ⟨hholds, hlater w hw, by show s.pops + 1 ≤ s.entries + 1; omega⟩
  rw [hqueue] at hsplit
  rcases List.append_eq_append_iff.mp hsplit with ⟨front, hold, hrest⟩ | ⟨front, hdead, hrest⟩
  · cases front with
    | nil => exact .inr (hcome (by rw [List.nil_append] at hrest; simp [← hrest]))
    | cons x front =>
      -- the waker stood in the old part
      rw [List.cons_append, List.cons.injEq] at hrest
      refine .inl ⟨hholds, front, new, hrest.2, ?_, hlater⟩
      rw [hold, List.length_append, List.length_cons] at hpops
      show front.length + (s.pops + 1) ≤ s.entries
      omega
  · exact .inr (hcome (by rw [hrest]; simp))

/-- A step of `fire`. -/
theorem Phase.fire {spurious : Bool} (h : Phase s s.pc) (hok : wrapOk s (.fire spurious))
    (hstep : stepFire s spurious = some t) : Phase t t.pc := by
  have hbound : s.pops ≤ s.entries + 1 := h.pops_le
  unfold stepFire at hstep
  split at hstep
  case h_1 hpc =>
      rw [hpc] at h
      split_ifs at hstep <;> cases hstep
      · exact hbound
      · exact h
  case h_2 flag hpc =>
      rw [hpc] at h
      have hzero : s.pops = 0 := h
      have hnonzero : u32 s.reg.seq ≠ 0 := by simpa [wrapOk, hpc] using hok
      split at hstep
      · cases hstep
        show s.pops ≤ s.reg.queue.length + 1
        omega
      · next w o r hpop =>
          cases hstep
          obtain ⟨⟨dead, hqueue, _⟩, hseq, ho⟩ := RegistryMulti.popFirst_some hpop
          rcases ho with ⟨rfl, _⟩ | rfl
          · show s.pops + 1 ≤ s.reg.queue.length + 1
            omega
          · -- everything in the queue is old
            refine ⟨⟨hnonzero, Nat.le_of_eq hseq.symm, congrArg (· / 2 ^ 32) hseq⟩, r.queue, [],
              (List.append_nil _).symm, ?_, nofun⟩
            show r.queue.length + (s.pops + 1) ≤ s.reg.queue.length
            rw [hqueue, List.length_append, List.length_cons]
            omega
  case h_3 w result after hpc =>
      rw [hpc] at h
      cases hstep
      have hsame : SameCount s (s.ring w) := ⟨rfl, fun _ => rfl, rfl, rfl⟩
      have hnext : Phase s (Fire.wakeNext w after (.returned result)) := h.wakeNext
      exact (hsame.goto _).phase hnext
  case h_4 w pc after _ hpc =>
      rw [hpc] at h
      cases hstep
      exact ((sameCount_setState s w _).goto _).phase h.wakeNext
  case h_5 w last hpc =>
      rw [hpc] at h
      split_ifs at hstep with hstop <;> cases hstep
      · exact hbound
      · rcases h with h | h
        · exact ((SameCount.refl s).goto _).inLoop h
        · exact absurd (h.lastSeq_le h.later) hstop
  case h_6 last hpc =>
      rw [hpc] at h
      split_ifs at hstep <;> cases hstep
      · exact hbound
      · exact ((SameCount.refl s).goto _).inLoop h
  case h_7 last hpc =>
      rw [hpc] at h
      split at hstep
      · cases hstep
        exact hbound
      · next w r hpop =>
          cases hstep
          -- one old entry less, or a new one, after which the loop ends
          exact InLoop.pop h hpop
  case h_8 => cases hstep

/-! ## The steps of the other threads -/

theorem Later.mono (h : Later s last w) (hle : s.reg.seq ≤ t.reg.seq) : Later t last w :=
  ⟨h.gt, h.le.trans hle⟩

/-- What a registration does to the counter and to the numbers. -/
structure Registers (s : St) (w : Nat) (t : St) : Prop where
  queue : t.reg.queue = s.reg.queue ++ [w]
  counter : t.reg.seq = s.reg.seq + 1
  seq : ∀ v, (t.waker v).seq = if v = w then s.reg.seq + 1 else (s.waker v).seq
  pops : t.pops = s.pops
  entries : t.entries = s.entries

theorem registers_register (s : St) (w : Nat) : Registers s w (s.register w) := by
  refine ⟨rfl, rfl, fun v => ?_, rfl, rfl⟩
  show (update s.waker w _ v).seq = _
  rw [update_apply]
  split_ifs <;> rfl

theorem Registers.holds (h : Registers s w t) (hs : Holds s last)
    (hwrap : u32 (s.reg.seq + 1) ≠ 0) : Holds t last := by
  have hblock := hs.block
  have hle := hs.le
  refine ⟨hs.nonzero, ?_, ?_⟩
  · rw [h.counter]
    omega
  · rw [h.counter]
    simp only [u32] at hwrap
    omega

theorem Registers.later (h : Registers s w t) (hs : Holds s last) {v : Nat}
    (hv : v = w ∨ Later s last (s.waker v).seq) : Later t last (t.waker v).seq := by
  have hle := hs.le
  have hcounter := h.counter
  rw [h.seq v]
  split_ifs with hvw
  · exact ⟨by omega, by omega⟩
  · exact (hv.resolve_left hvw).mono (by omega)

/-- A registration does not lengthen the loop. -/
theorem Registers.inLoop (h : Registers s w t) (hs : InLoop s last)
    (hwrap : u32 (s.reg.seq + 1) ≠ 0) : InLoop t last := by
  obtain ⟨old, new, hqueue, hpops, hnew⟩ := hs.split
  refine ⟨h.holds hs.toHolds hwrap, old, new ++ [w], ?_, ?_, fun v hv => ?_⟩
  · rw [h.queue, hqueue, List.append_assoc]
  · rw [h.pops, h.entries]
    exact hpops
  · refine h.later hs.toHolds ?_
    rcases List.mem_append.mp hv with hv | hv
    · exact .inr (hnew v hv)
    · exact .inl (List.mem_singleton.mp hv)

theorem Registers.atLater (h : Registers s w t) {v : Nat} (hs : AtLater s v last)
    (hwrap : u32 (s.reg.seq + 1) ≠ 0) : AtLater t v last := by
  refine ⟨h.holds hs.toHolds hwrap, h.later hs.toHolds (.inr hs.later), ?_⟩
  rw [h.pops, h.entries]
  exact hs.pops

/-- A registration during the call. -/
theorem Registers.phase (h : Registers s w t) (hs : Phase s pc)
    (hwrap : pc.holds.isSome → u32 (s.reg.seq + 1) ≠ 0) : Phase t pc := by
  have hbound : s.pops ≤ s.entries + 1 → t.pops ≤ t.entries + 1 := by
    rw [h.pops, h.entries]
    exact id
  cases pc with
  | first | firstLock flag => exact h.pops.trans hs
  | wake w pc after =>
    cases after with
    | stop => exact hbound hs
    | first last => exact h.inLoop hs (hwrap rfl)
    | again last => exact hs.imp (h.inLoop · (hwrap rfl)) (h.atLater · (hwrap rfl))
  | seqCheck w last => exact hs.imp (h.inLoop · (hwrap rfl)) (h.atLater · (hwrap rfl))
  | again last | againLock last => exact h.inLoop hs (hwrap rfl)
  | returned result => exact hbound hs

/-- Others take wakers out. -/
theorem InLoop.remove (h : InLoop s last) {q : List Nat} (hq : q.Sublist s.reg.queue) :
    InLoop { s with reg := s.reg.popped q } last := by
  have hseq : (s.reg.popped q).seq = s.reg.seq := RegistryMulti.popped_seq
  obtain ⟨old, new, hqueue, hpops, hnew⟩ := h.split
  have hkeep : (s.reg.popped q).queue = q := RegistryMulti.popped_queue hq
  rw [hqueue] at hq
  obtain ⟨old', new', rfl, hold, hnew'⟩ := List.sublist_append_iff.mp hq
  refine ⟨⟨h.nonzero, hseq ▸ h.le, hseq ▸ h.block⟩, old', new', hkeep, ?_, fun v hv => ?_⟩
  · have := hold.length_le
    show old'.length + s.pops ≤ s.entries
    omega
  · exact (hnew v (hnew'.subset hv)).mono (Nat.le_of_eq hseq.symm)

/-- Others take wakers out. -/
theorem Phase.remove (h : Phase s pc) {q : List Nat} (hq : q.Sublist s.reg.queue) :
    Phase { s with reg := s.reg.popped q } pc := by
  have hseq : (s.reg.popped q).seq = s.reg.seq := RegistryMulti.popped_seq
  have hat : ∀ {w last}, AtLater s w last → AtLater { s with reg := s.reg.popped q } w last :=
    fun h => ⟨⟨h.nonzero, hseq ▸ h.le, hseq ▸ h.block⟩,
      h.later.mono (Nat.le_of_eq hseq.symm), h.pops⟩
  cases pc with
  | first | firstLock | returned => exact h
  | wake w pc after =>
    cases after with
    | stop => exact h
    | first last => exact InLoop.remove h hq
    | again last => exact h.imp (·.remove hq) hat
  | seqCheck w last => exact h.imp (·.remove hq) hat
  | again last | againLock last => exact InLoop.remove h hq

/-- **Every action keeps the phase.** -/
theorem Phase.step {a : Act} (h : Phase s s.pc) (hok : wrapOk s a) (hstep : step s a = some t) :
    Phase t t.pc := by
  cases a with
  | fire spurious => exact h.fire hok hstep
  | regWaker w =>
    cases hstep
    exact (registers_register s w).phase h hok
  | remove q =>
    simp only [Fire.step] at hstep
    split_ifs at hstep with hsub
    cases hstep
    exact h.remove (List.isSublist_iff_sublist.mp hsub)
  | setState w state =>
    cases hstep
    exact (sameCount_setState s w state).phase h
  | dropWaker w =>
    cases hstep
    exact (sameCount_dropWaker s w).phase h

end Steps

theorem phase_of_reach {s : St} (h : Reach system wrapOk s) : Phase s s.pc := by
  refine h.invariant (P := fun s => Phase s s.pc) ?_ fun s a t hs hok hstep => hs.step hok hstep
  rintro s ⟨reg, waker, rfl⟩
  rfl

/-- One call of `fire` pops at most one live waker more than there were entries when its `pop_first`
took the lock, if the counter does not come around meanwhile. -/
theorem fire_pops_le {s : St} (h : Reach system wrapOk s) : s.pops ≤ s.entries + 1 :=
  (phase_of_reach h).pops_le

/-- Two sinks register again whenever they are woken, just after the counter came around: the call
pops four wakers where there were two entries. -/
theorem fire_pops_more :
    ∃ s, Reachable system s ∧ s.entries = 2 ∧ s.entries + 1 < s.pops := by
  let reg : RegistryMulti := ⟨⟨false, true⟩, [0, 1], [], 2 ^ 32⟩
  let waker : Nat → WakerInner := fun w => ⟨.init, 2 ^ 32 - 1 + w, true⟩
  have hnew : Reachable system (.call reg waker) := .init ⟨reg, waker, rfl⟩
  exact hnew.exists_of_run
    [.fire false, .fire false, .fire false, .fire false, .fire false, .setState 0 .init,
      .regWaker 0, .fire false, .fire false, .fire false, .fire false, .fire false,
      .setState 1 .init, .regWaker 1, .fire false, .fire false, .fire false, .fire false,
      .fire false, .fire false, .setState 0 .init, .regWaker 0, .fire false, .fire false,
      .fire false] _ (by decide +kernel)

/-- The same with a small counter: the first waker that registered again stops the call. -/
theorem fire_pops_le_again :
    ∃ s, Reach system wrapOk s ∧ s.pc = .returned .next ∧ s.entries = 2 ∧ s.pops = 2 ∧
      s.pops ≤ s.entries + 1 := by
  let reg : RegistryMulti := ⟨⟨false, true⟩, [0, 1], [], 5⟩
  let waker : Nat → WakerInner := fun w => ⟨.init, 1 + w, true⟩
  have hnew : Reach system wrapOk (.call reg waker) := .init ⟨reg, waker, rfl⟩
  obtain ⟨s, hs, hpc, hentries, hpops⟩ := hnew.exists_of_run
    [.fire false, .fire false, .fire false, .fire false, .fire false, .setState 0 .init,
      .regWaker 0, .fire false, .fire false, .fire false, .fire false, .fire false,
      .setState 1 .init, .regWaker 1, .fire false]
    (fun s => s.pc = .returned .next ∧ s.entries = 2 ∧ s.pops = 2)
    (by decide +kernel)
  exact ⟨s, hs, hpc, hentries, hpops, fire_pops_le hs⟩

end Crossfire.Registry.Fire
