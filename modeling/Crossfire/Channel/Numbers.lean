import Crossfire.Channel.Placed

/-!
# The numbers of the registrations

Every registration in a `RegistryMulti` gives its waker the next number of the registry, so that the
numbers of a side's wakers are pairwise different and the queue stands in the order of its numbers
(`Numbered`). The code keeps them in 32 bits. `_clear_wakers` looks for its waker by that number: it
meets no other one as long as fewer than `2 ^ 32` registrations were made since those it compares
(`windowOk`). This gives the condition `clearOk` of the other invariants.
-/

set_option autoImplicit false

namespace Crossfire.Channel

open Lib.Interleaving Crossfire.Waker Crossfire.Registry

/-! ## Which registry a waker is removed from -/

/-- A waker is removed from the registry of the side of the call. -/
def Pc.Aims : Pc → Prop
  | .clear x _ _ k | .clearLock x _ _ k | .abandon x _ _ k => k.call.map Call.side = some x
  | _ => True

theorem Cont.aims_pc (k : Cont) : k.pc.Aims := by cases k <;> trivial

section Aims

variable {ι : Type} [Fintype ι] {cfg : Cfg} {s : St ι} {i : ι} {e : Eff} {pc pc' : Pc} {x : Side}
  {c : Call} {k : Cont} {w : Nat}

omit [Fintype ι] in
theorem Fires.aims (h : Fires cfg x k pc') : pc'.Aims := by
  cases h with
  | dummy kind => exact k.aims_pc
  | fire kind => trivial

theorem Sleeps.aims (h : Sleeps c w pc') : pc'.Aims := by cases h <;> trivial

theorem Settles.aims {state : WakerState} (h : Settles c w state pc') : pc'.Aims := by
  cases h with
  | sleep _ notWoken goes => exact goes.aims
  | spin | last | err => trivial

theorem Wakes.aims {rest : Rest} {result : WakeResult} (h : Wakes x w k rest result pc') :
    pc'.Aims := by
  cases h with
  | leave => exact k.aims_pc
  | again | seqCheck => trivial

theorem fireStep_aims {f : FirePc} (h : FireStep cfg s x k f e pc') : pc'.Aims := by
  cases h with
  | skip _ _ _ _ _ _ goes | wakeByRef _ _ _ _ goes => exact goes.aims
  | _ => first | exact k.aims_pc | trivial

omit [Fintype ι] in
theorem call_reused (c : Call) (o : Option Nat) (state : WakerState) :
    (reused c o state).call = some c := by
  cases state <;> rfl

/-- A compare-exchange aims at a state it may change. -/
theorem aims_of_pcStep (h : PcStep cfg s i pc e pc') (haims : pc.Aims) : pc'.Aims := by
  cases h with
  | recv _ _ _ _ _ _ _ _ _ goes | send _ _ _ _ _ _ _ _ _ goes | closedSettle _ _ _ _ _ _ goes
  | congestNot _ _ _ goes | snoozeDone _ _ _ goes | snoozeWoken _ _ _ _ goes | state _ _ _ goes
  | abandonFire _ _ _ _ _ goes => exact goes.aims
  | stale | timeout | cancel => rfl
  | reuseClear c w target =>
    show (reused c none target).call.map Call.side = some c.side
    rw [call_reused]
    rfl
  | reuseWoken | reuse | clearSkip | clearLock | abandonErr => exact Cont.aims_pc _
  | clear | abandonOk | abandonRetry => exact haims
  | fire x f k _ _ step => exact fireStep_aims step
  | close x f _ _ step => cases step <;> trivial
  | _ => trivial

end Aims

/-! ## What a step does to the numbers -/

section Numbers

variable {ι : Type} [DecidableEq ι] [Fintype ι]

/-- How the wakers of `t` are numbered, after a step from `s` at `pc`. -/
inductive Renumbers (cfg : Cfg) (s t : St ι) (pc : Pc) : Prop
  | keep (next : t.nextWaker = s.nextWaker) (seq : ∀ v, (t.waker v).seq = (s.waker v).seq)
      (reg : ∀ x, (t.reg x).seq = (s.reg x).seq)
      (queue : ∀ x, (t.reg x).queue.Sublist (s.reg x).queue)
  /-- A new waker in the cell of a single waiter has no number. -/
  | swap (next : t.nextWaker = s.nextWaker + 1)
      (seq : ∀ v, v ≠ s.nextWaker → (t.waker v).seq = (s.waker v).seq)
      (new : (t.waker s.nextWaker).seq = 0)
      (kind : cfg.kind (t.waker s.nextWaker).side ≠ .multi) (reg : t.reg = s.reg)
  | register (x : Side) (w : Nat) (kind : cfg.kind x = .multi)
      (which : (pc.ready = some w ∧ t.nextWaker = s.nextWaker) ∨
        (w = s.nextWaker ∧ t.nextWaker = s.nextWaker + 1))
      (side : (t.waker w).side = x ∨ pc.ready = some w) (call : ∃ c, pc.call = some c ∧ c.side = x)
      (number : (t.waker w).seq = (s.reg x).seq + 1)
      (seq : ∀ v, v ≠ w → (t.waker v).seq = (s.waker v).seq)
      (reg : (t.reg x).seq = (s.reg x).seq + 1) (queue : (t.reg x).queue = (s.reg x).queue ++ [w])
      (other : ∀ y, y ≠ x → t.reg y = s.reg y)

variable {cfg : Cfg} {s : St ι} {i : ι} {e : Eff} {pc pc' : Pc}

omit [Fintype ι] in
theorem Eff.Inert.renumbers (h : e.Inert s) : Renumbers cfg s (s.apply i e) pc := by
  refine .keep ?_ (fun v => by rw [h.waker]) (fun x => ?_) (fun x => by rw [h.queue])
  · cases e <;> first | rfl | exact h.elim
  · cases e with
    | unlock y => exact field_update RegistryMulti.seq (by rfl) x
    | _ => first | rfl | exact h.elim

omit [Fintype ι] in
/-- A section under the lock that gives out no number. -/
theorem renumbers_registry {y : Side} {r : RegistryMulti} (hseq : r.seq = (s.reg y).seq)
    (hqueue : r.queue.Sublist (s.reg y).queue) :
    Renumbers cfg s (s.apply i (.registry y r)) pc := by
  refine .keep rfl (fun v => rfl) (field_update RegistryMulti.seq hseq) fun x => ?_
  rw [registry_queue]
  split_ifs with hx
  · subst hx
    exact hqueue
  · exact List.Sublist.refl _

omit [Fintype ι] in
theorem renumbers_setState (v : Nat) (state : WakerState) :
    Renumbers cfg s (s.apply i (.setState v state)) pc :=
  .keep rfl (field_update WakerInner.seq (by rfl)) (fun _ => rfl) fun _ => List.Sublist.refl _

omit [DecidableEq ι] [Fintype ι] in
/-- `reg_waker` of waker `w`. -/
theorem register_reg (x y : Side) (w : Nat) (inner : WakerInner ι) :
    (s.register x w inner).reg y = if y = x then (s.reg x).regWaker w else s.reg y :=
  Function.update_apply ..

/-- Only a registration gives a number. -/
theorem Move.renumbers (h : Move cfg s pc e pc') : Renumbers cfg s (s.apply i e) pc := by
  cases h with
  | still _ _ inert | giveUp _ _ _ _ inert => exact inert.renumbers
  | take y v r _ dead flows ready pops pops' rings queue hdead seq =>
    refine renumbers_registry seq ?_
    rw [queue]
    exact (List.sublist_cons_self _ _).trans (List.sublist_append_right _ _)
  | drain y r _ dead still queue hdead seq =>
    refine renumbers_registry seq ?_
    rw [queue]
    exact List.sublist_append_right _ _
  | clear y v oneshot k hpc still =>
    exact renumbers_registry RegistryMulti.popped_seq (clearWakers_sublist y v oneshot)
  | takeCell y v => exact .keep rfl (fun _ => rfl) (fun _ => rfl) fun _ => List.Sublist.refl _
  | wake | reset | commit | abandon => exact renumbers_setState _ _
  | ring v _ =>
    refine .keep ?_ (fun u => ?_) (fun x => by rw [apply_wakeByRef])
      fun x => by rw [apply_wakeByRef]
    · simp only [St.apply, St.wakeByRef]
      split <;> rfl
    · rw [apply_wakeByRef_waker]
      exact field_update WakerInner.seq (by rfl) u
  | register c w hpc kind unlocked =>
    refine .register c.side w kind (.inl ⟨by rw [hpc]; rfl, rfl⟩) (.inr (by rw [hpc]; rfl))
      ⟨c, by rw [hpc]; rfl, rfl⟩ ?_ ?_ ?_ ?_ ?_
    · simp [St.apply, St.register, St.setWaker]
    · intro v hv
      simp [St.apply, St.register, St.setWaker, St.setReg, hv]
    · show ((s.register c.side w (s.waker w)).reg c.side).seq = _
      rw [register_reg, if_pos rfl]
      rfl
    · show ((s.register c.side w (s.waker w)).reg c.side).queue = _
      rw [register_reg, if_pos rfl]
      rfl
    · intro y hy
      show (s.register c.side w (s.waker w)).reg y = _
      rw [register_reg, if_neg hy]
  | regNew c o fresh hpc kind unlocked =>
    refine .register c.side s.nextWaker kind (.inr ⟨rfl, rfl⟩) (.inl ?_)
      ⟨c, by rw [hpc]; rfl, rfl⟩ ?_ ?_ ?_ ?_ ?_
    · simp [St.apply, St.register, St.setWaker, newWaker]
    · simp [St.apply, St.register, St.setWaker]
    · intro v hv
      simp [St.apply, St.register, St.setWaker, St.setReg, hv]
    · show ((s.register c.side s.nextWaker (newWaker i c.side c.thin)).reg c.side).seq = _
      rw [register_reg, if_pos rfl]
      rfl
    · show ((s.register c.side s.nextWaker (newWaker i c.side c.thin)).reg c.side).queue = _
      rw [register_reg, if_pos rfl]
      rfl
    · intro y hy
      show (s.register c.side s.nextWaker (newWaker i c.side c.thin)).reg y = _
      rw [register_reg, if_neg hy]
  | swap c o fresh hpc kind =>
    refine .swap rfl (fun v hv => ?_) ?_ ?_ rfl
    · simp [St.apply, St.setWaker, hv]
    · simp [St.apply, St.setWaker, newWaker]
    · simp [St.apply, St.setWaker, newWaker, kind]

/-! ## The invariant -/

/-- The wakers of a side have different numbers, and a queue stands in the order of its numbers. -/
structure Numbered (cfg : Cfg) (s : St ι) : Prop where
  le : ∀ w, w < s.nextWaker → (s.waker w).seq ≤ (s.reg (s.waker w).side).seq
  inj : ∀ v w, v < s.nextWaker → w < s.nextWaker → (s.waker v).side = (s.waker w).side →
    cfg.kind (s.waker v).side = .multi → (s.waker v).seq = (s.waker w).seq → v = w
  order : ∀ x, (s.reg x).queue.Pairwise fun v w => (s.waker v).seq < (s.waker w).seq
  aims : ∀ i, (s.pc i).Aims

variable {t : St ι} {x : Side} {w : Nat}

omit [DecidableEq ι] [Fintype ι] in
/-- What the numbers of a queue depend on. -/
theorem pairwise_seq {q q' : List Nat}
    (h : q.Pairwise fun v w => (s.waker v).seq < (s.waker w).seq) (hsub : q'.Sublist q)
    (hseq : ∀ v ∈ q', (t.waker v).seq = (s.waker v).seq) :
    q'.Pairwise fun v w => (t.waker v).seq < (t.waker w).seq := by
  refine (h.sublist hsub).imp_of_mem fun {v w} hv hw hlt => ?_
  rw [hseq v hv, hseq w hw]
  exact hlt

/-- A step that renumbers keeps the invariant. -/
theorem Numbered.renumber (hn : Numbered cfg s) (h : Held s) (hp : Placed cfg s)
    (hm : Move cfg s (s.pc i) e pc') : Numbered cfg (s.apply i e) := by
  have hside {v : Nat} (hv : v < s.nextWaker) := (apply_owner_side s i e hv).2
  have haims : ∀ j, ((s.apply i e).pc j).Aims := fun j => by rw [apply_pc]; exact hn.aims j
  cases hm.renumbers (i := i) with
  | keep next seq reg queue =>
    refine ⟨fun v hv => ?_, fun v u hv hu huv hkind heq => ?_, fun x => ?_, haims⟩
    · rw [next] at hv
      rw [seq, hside hv, reg]
      exact hn.le v hv
    · rw [next] at hv hu
      rw [hside hv] at huv hkind
      rw [hside hu] at huv
      rw [seq, seq] at heq
      exact hn.inj v u hv hu huv hkind heq
    · exact pairwise_seq (hn.order x) (queue x) fun v _ => seq v
  | swap next seq new kind reg =>
    have hlt {v : Nat} (hv : v < (s.apply i e).nextWaker) (hne : v ≠ s.nextWaker) :
        v < s.nextWaker := by omega
    refine ⟨fun v hv => ?_, fun v u hv hu huv hkind heq => ?_, fun x => ?_, haims⟩
    · by_cases hne : v = s.nextWaker
      · rw [hne, new]
        exact Nat.zero_le _
      · rw [seq v hne, hside (hlt hv hne), reg]
        exact hn.le v (hlt hv hne)
    · -- the new waker is on a side without numbers
      have hv' : v ≠ s.nextWaker := by
        rintro rfl
        exact kind hkind
      have hu' : u ≠ s.nextWaker := by
        rintro rfl
        exact kind (huv ▸ hkind)
      rw [hside (hlt hv hv')] at huv hkind
      rw [hside (hlt hu hu')] at huv
      rw [seq v hv', seq u hu'] at heq
      exact hn.inj v u (hlt hv hv') (hlt hu hu') huv hkind heq
    · rw [reg]
      refine pairwise_seq (hn.order x) (List.Sublist.refl _) fun v hv => seq v ?_
      rintro rfl
      exact Nat.lt_irrefl _ (h.listed x _ (.inl hv)).1
  | register x w kind which side call number seq reg queue other =>
    -- the registered waker stands in no queue
    have hnot : ∀ y, w ∉ (s.reg y).queue := by
      intro y hy
      rcases which with ⟨hready, _⟩ | ⟨rfl, _⟩
      · exact (hp.ready i w hready).2 (.inl ⟨y, .inl hy⟩)
      · exact Nat.lt_irrefl _ (h.listed y _ (.inl hy)).1
    have hlt {v : Nat} (hv : v < (s.apply i e).nextWaker) (hne : v ≠ w) : v < s.nextWaker := by
      rcases which with ⟨_, hnext⟩ | ⟨rfl, hnext⟩ <;> omega
    have hwside : ((s.apply i e).waker w).side = x := by
      rcases side with hside | hready
      · exact hside
      · obtain ⟨c, hcall, rfl⟩ := call
        obtain ⟨hw, _, hhandle⟩ := h.mine i w (Pc.ready_mem_mine hready)
        have hcside : s.handle i = some c.side := h.side i c.side (by rw [Pc.side, hcall]; rfl)
        rw [hside hw]
        exact Option.some.inj (hhandle.symm.trans hcside)
    have hle {v : Nat} (hv : v < s.nextWaker) (hvx : (s.waker v).side = x) :
        (s.waker v).seq < ((s.apply i e).waker w).seq := by
      have hbound := hn.le v hv
      rw [hvx] at hbound
      omega
    refine ⟨fun v hv => ?_, fun v u hv hu huv hkind heq => ?_, fun y => ?_, haims⟩
    · by_cases hne : v = w
      · subst hne
        rw [hwside, number, reg]
      · have hbound := hn.le v (hlt hv hne)
        rw [seq v hne, hside (hlt hv hne)]
        by_cases hvx : (s.waker v).side = x
        · rw [hvx] at hbound ⊢
          omega
        · rw [other _ hvx]
          exact hbound
    · by_cases hv' : v = w
      · subst hv'
        by_contra hne
        have hu' : u ≠ v := fun heq => hne heq.symm
        rw [hwside, hside (hlt hu hu')] at huv
        rw [seq u hu'] at heq
        have := hle (hlt hu hu') huv.symm
        omega
      · by_cases hu' : u = w
        · subst hu'
          rw [hwside, hside (hlt hv hv')] at huv
          rw [seq v hv'] at heq
          have := hle (hlt hv hv') huv
          omega
        · rw [hside (hlt hv hv')] at huv hkind
          rw [hside (hlt hu hu')] at huv
          rw [seq v hv', seq u hu'] at heq
          exact hn.inj v u (hlt hv hv') (hlt hu hu') huv hkind heq
    · have hold : ∀ v ∈ (s.reg y).queue, ((s.apply i e).waker v).seq = (s.waker v).seq :=
        fun v hv => seq v fun heq => hnot y (heq ▸ hv)
      by_cases hy : y = x
      · subst hy
        rw [queue, List.pairwise_append]
        refine ⟨pairwise_seq (hn.order y) (List.Sublist.refl _) hold,
          List.pairwise_singleton _ _, fun v hv u hu => ?_⟩
        rw [List.mem_singleton.mp hu, hold v hv]
        obtain ⟨hv', hvy⟩ := h.listed y v (.inl hv)
        exact hle hv' hvy
      · rw [other y hy]
        exact pairwise_seq (hn.order y) (List.Sublist.refl _) hold

omit [Fintype ι] in
theorem Numbered.setPc (hn : Numbered cfg s) (haims : pc'.Aims) : Numbered cfg (s.setPc i pc') := by
  refine ⟨hn.le, hn.inj, hn.order, fun j => ?_⟩
  by_cases hj : j = i
  · subst hj
    rwa [setPc_pc_self]
  · rw [setPc_pc_of_ne hj]
    exact hn.aims j

omit [DecidableEq ι] [Fintype ι] in
/-- What the invariant does not look at. -/
theorem Numbered.congr (hn : Numbered cfg s) (hpc : t.pc = s.pc) (hwaker : t.waker = s.waker)
    (hnext : t.nextWaker = s.nextWaker) (hseq : ∀ x, (t.reg x).seq = (s.reg x).seq)
    (hqueue : ∀ x, (t.reg x).queue = (s.reg x).queue) : Numbered cfg t := by
  refine ⟨?_, ?_, fun x => ?_, ?_⟩
  · simp only [hnext, hwaker, hseq]
    exact hn.le
  · simp only [hnext, hwaker]
    exact hn.inj
  · rw [hqueue, hwaker]
    exact hn.order x
  · rw [hpc]
    exact hn.aims

omit [DecidableEq ι] [Fintype ι] in
theorem Numbered.countMsg (hn : Numbered cfg s) (c : Call) : Numbered cfg (s.countMsg c) := by
  unfold St.countMsg
  split_ifs
  · exact hn.congr rfl rfl rfl (fun _ => rfl) fun _ => rfl
  · exact hn

omit [DecidableEq ι] [Fintype ι] in
theorem setReg_seq {r : RegistryMulti} (h : r.seq = (s.reg x).seq) (y : Side) :
    ((s.setReg x r).reg y).seq = (s.reg y).seq :=
  field_update RegistryMulti.seq h y

omit [Fintype ι] in
/-- The start of a call. -/
theorem Numbered.call {a : Act ι} (hn : Numbered cfg s) (hstep : CallStep cfg s a t) :
    Numbered cfg t := by
  cases hstep with
  | call i c pc handle msg =>
    refine (hn.countMsg c).setPc ?_
    cases c with
    | pollSend m sink k => cases sink <;> trivial
    | trySelect final => cases final <;> trivial
    | _ => trivial
  | poll i c c' w _ pc next =>
    refine (hn.countMsg c').setPc ?_
    cases next <;> trivial
  | dropFuture i c w pc kind => exact hn.setPc rfl
  | dropSingle | readToken | dropToken => exact hn.setPc trivial
  | dropHandle | clone => exact hn.congr rfl rfl rfl (fun _ => rfl) fun _ => rfl
  | dropLast i x _ pc handle alone goes =>
    have hdrop : Numbered cfg (s.dropHandle x i) :=
      hn.congr rfl rfl rfl (fun _ => rfl) fun _ => rfl
    refine hdrop.setPc ?_
    cases goes <;> trivial
  | readTaken i m _ pc goes => exact hn.setPc goes.aims
  | regSelect | cancelSelect => exact hn.congr rfl rfl rfl (setReg_seq rfl) (setReg_queue rfl)

/-- Every action keeps the numbers in order. -/
theorem Numbered.step {a : Act ι} (hn : Numbered cfg s) (h : Held s) (hp : Placed cfg s)
    (hstep : Channel.step cfg s a = some t) : Numbered cfg t := by
  rcases step_cases hstep with ⟨i, choice, e, pc', rfl, hpc, rfl⟩ | hcall
  · have hm : Move cfg s (s.pc i) e pc' := move_of_pcStep hpc (h.fits i)
    exact (hn.renumber h hp hm).setPc (aims_of_pcStep hpc (hn.aims i))
  · exact hn.call hcall

omit [Fintype ι] in
theorem numbered_new (a b : ι) : Numbered cfg (St.new a b) :=
  ⟨nofun, nofun, fun _ => List.Pairwise.nil, fun _ => trivial⟩

/-- **On every run the numbers are in order.** -/
theorem numbered_of_reach (h : Reach (system cfg) clearOk s) : Numbered cfg s := by
  suffices hall : Held s ∧ Placed cfg s ∧ Numbered cfg s from hall.2.2
  refine h.invariant (P := fun s => Held s ∧ Placed cfg s ∧ Numbered cfg s) ?_ ?_
  · rintro _ ⟨a, b, hab, rfl⟩
    exact ⟨held_new hab, placed_new a b, numbered_new a b⟩
  · rintro s a t ⟨hheld, hplaced, hnumbered⟩ hok hstep
    exact ⟨hheld.step hstep, hplaced.step hheld hok hstep, hnumbered.step hheld hplaced hstep⟩

/-! ## The 32-bit numbers -/

/-- Fewer than `2 ^ 32` registrations were made since the one of the waker that `_clear_wakers`
looks for, and since those of the live wakers in the queue. -/
def windowOk (s : St ι) : Act ι → Prop
  | .go i _ =>
    ∀ p ∈ (s.pc i).clears, (s.reg p.1).seq < (s.waker p.2).seq + 2 ^ 32 ∧
      ∀ v ∈ (s.reg p.1).queue, s.alive v = true → (s.reg p.1).seq < (s.waker v).seq + 2 ^ 32
  | .call _ _ | .poll _ _ | .dropFuture _ | .dropHandle _ | .clone _ _ | .readSelect _
  | .dropToken _ | .regSelect _ _ | .cancelSelect _ => True

instance (s : St ι) : (a : Act ι) → Decidable (windowOk s a)
  | .go i _ => inferInstanceAs (Decidable (∀ p ∈ (s.pc i).clears,
      (s.reg p.1).seq < (s.waker p.2).seq + 2 ^ 32 ∧
        ∀ v ∈ (s.reg p.1).queue, s.alive v = true → (s.reg p.1).seq < (s.waker v).seq + 2 ^ 32))
  | .call _ _ | .poll _ _ | .dropFuture _ | .dropHandle _ | .clone _ _ | .readSelect _
  | .dropToken _ | .regSelect _ _ | .cancelSelect _ => instDecidableTrue

theorem eq_of_u32_eq {a b n : Nat} (ha : a ≤ n) (hb : b ≤ n) (ha' : n < a + 2 ^ 32)
    (hb' : n < b + 2 ^ 32) (h : u32 a = u32 b) : a = b := by
  unfold u32 at h
  omega

omit [DecidableEq ι] in
/-- Within the window the 32-bit number of a waker is its own. -/
theorem Numbered.clearOk (hn : Numbered cfg s) (h : Held s) (hp : Placed cfg s) {a : Act ι}
    (hok : windowOk s a) : clearOk s a := by
  cases a with
  | go i choice =>
    rintro ⟨x, w⟩ hclears v hv halive hseq
    obtain ⟨hwindow, hqueue⟩ := hok (x, w) hclears
    -- the waker is registered in the registry it is removed from
    have hw : w < s.nextWaker ∧ (s.waker w).side = x := by
      rw [Option.mem_def] at hclears
      unfold Pc.clears at hclears
      split at hclears
      · next y u oneshot k hpc =>
          cases hclears
          obtain ⟨hlt, _, hhandle⟩ := h.mine i w (by rw [hpc]; exact List.mem_cons_self)
          have haims := hn.aims i
          rw [hpc] at haims
          have hside : s.handle i = some x := h.side i x (by rw [hpc]; exact haims)
          exact ⟨hlt, Option.some.inj (hhandle.symm.trans hside)⟩
      · cases hclears
    obtain ⟨hlt, hwx⟩ := hw
    obtain ⟨hvlt, hvx⟩ := h.listed x v (.inl hv)
    have hkind : cfg.kind x = .multi := by
      by_contra hne
      rw [hp.queue x hne] at hv
      cases hv
    have hvle := hn.le v hvlt
    have hwle := hn.le w hlt
    rw [hvx] at hvle
    rw [hwx] at hwle
    have heq := eq_of_u32_eq hvle hwle (hqueue v hv halive) hwindow hseq
    exact hn.inj v w hvlt hlt (hvx.trans hwx.symm) (hvx.symm ▸ hkind) heq
  | _ => trivial

theorem clearOk_of_windowOk (h : Reach (system cfg) windowOk s) :
    Reach (system cfg) clearOk s := by
  induction h with
  | init hs => exact .init hs
  | step a hs hok hstep ih =>
    have hheld := held_of_reach ih
    exact .step a ih ((numbered_of_reach ih).clearOk hheld (placed_of_reach ih) hok) hstep

end Numbers

end Crossfire.Channel
