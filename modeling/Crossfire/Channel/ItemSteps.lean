import Crossfire.Channel.Items

/-!
# What a step does with an item

`Runs` says where the agent of a frame is: `Inside` a sending call, on its way out of an
`abandon_send_waker`, or between polls. `does_of_step` reduces the steps of the system to a few
kinds: an action that is not a send, a new item, and a step on an item that stays in its frame, is
pushed, or is settled (`Handles`).
-/

set_option autoImplicit false

namespace Crossfire.Channel.Items

open Lib.Interleaving Crossfire.Waker Crossfire.Registry

/-! ## Frames and program counters -/

/-- The channel's call inside a frame. -/
def Frame.Makes : Frame → Call → Prop
  | .send m, c => c = .send m false
  | .sendTimeout m _, c => c = .send m true
  | .trySend m, c => c = .trySend m
  | .future _ m, c => ∃ k, c = .pollSend m false k
  | .polling m, c => ∃ k, c = .pollSend m true k
  | _, _ => False

theorem Frame.Makes.side {f : Frame} {c : Call} (h : f.Makes c) : c.side = .tx := by
  cases f with
  | send m | sendTimeout m overflow | trySend m => cases h; rfl
  | future timed m | polling m => obtain ⟨k, rfl⟩ := h; rfl
  | _ => exact h.elim

theorem Frame.Makes.msg {f : Frame} {c : Call} (h : f.Makes c) : c.msg = f.item := by
  cases f with
  | send m | sendTimeout m overflow | trySend m => cases h; rfl
  | future timed m | polling m => obtain ⟨k, rfl⟩ := h; rfl
  | _ => exact h.elim

/-- The frames that give up a waker. -/
def Frame.Leaves : Frame → Prop
  | .dropping _ | .timingOut _ | .sinkDrop => True
  | _ => False

section Inside

variable {ι : Type} [Fintype ι] {cfg : Cfg} {ch : Channel.St ι} {i : ι} {choice : Bool} {e : Eff}
  {c : Call} {pc pc' : Pc}

/-- An agent inside the sending call `c`. -/
structure Inside (cfg : Cfg) (c : Call) (pc : Pc) : Prop where
  call : pc.call = some c
  checks : ∀ c', pc.checks = some c' → c'.hasDeadline = true
  returns : ∀ r, pc.result = some (c, r) → c.returns r = true
  pending : pc.result = some (c, .pending) → ∃ w, pc = .keep c w .pending
  enters : cfg.kind .tx = .dummy → pc.enters = false

/-- A place that neither checks, returns nor enters. -/
theorem inside_start (h : pc.call = some c) (hchecks : pc.checks = none)
    (hresult : pc.result = none) (henters : pc.enters = false) : Inside cfg c pc := by
  refine ⟨h, fun c' hc => ?_, fun r hr => ?_, fun hr => ?_, fun _ => henters⟩
  · rw [hchecks] at hc; cases hc
  · rw [hresult] at hr; cases hr
  · rw [hresult] at hr; cases hr

/-- A step inside a sending call ends it or stays in it. -/
theorem Inside.step (h : Inside cfg c pc) (hcfg : cfg.kind .tx = .dummy → cfg.cap = none)
    (hside : c.side = .tx) (hfits : pc.Fits) (hdone : ∀ v, (ch.waker v).state ≠ .done)
    (hstep : stepPc cfg ch i choice pc = some (e, pc')) :
    (∃ r, e = .ret c r) ∨ (∀ c r, e ≠ .ret c r) ∧ Inside cfg c pc' := by
  have hpcStep := pcStep_of_stepPc hstep
  have hpside : pc.side = some .tx := by rw [Pc.side, h.call, Option.map_some, hside]
  by_cases hret : ∃ c' r, e = .ret c' r
  · obtain ⟨c', r, rfl⟩ := hret
    have hcall := Pc.call_of_result (result_of_ret hpcStep)
    rw [h.call] at hcall
    cases hcall
    exact .inl ⟨r, rfl⟩
  · have hnot : ∀ c r, e ≠ .ret c r := fun c' r he => hret ⟨c', r, he⟩
    have hcall : pc'.call = some c := by
      rcases stays_of_pcStep hpcStep h.call hside with hcall | ⟨r, he, -⟩ | hpanic
      · exact hcall
      · exact absurd he (hnot c r)
      · exact absurd hpanic (ne_panicked_of_pcStep hpcStep hdone hpside h.enters)
    -- a result is new, or it was there before the step
    have hresult : pc.result = none ∨ pc'.result = pc.result := by
      cases hold : pc.result with
      | none => exact .inl rfl
      | some p =>
        refine .inr ?_
        rcases result_of_stepPc hstep hdone hold with he | hsame
        · exact absurd he (hnot _ _)
        · exact hsame
    refine .inr ⟨hnot, hcall, fun c' => checks_of_stepPc hstep, fun r hr => ?_, fun hr => ?_,
      fun hkind => enters_eq_false hcfg hpcStep hfits hpside hkind (h.enters hkind)⟩
    · rcases hresult with hnone | hsame
      · exact returns_of_stepPc hstep hfits h.checks hpside hnone hr
      · exact h.returns r (hsame ▸ hr)
    · rcases hresult with hnone | hsame
      · exact pending_of_pcStep hpcStep hnone hr
      · -- a kept `Pending` is returned at once
        obtain ⟨w, rfl⟩ := h.pending (hsame ▸ hr)
        cases hstep
        exact absurd rfl (hnot c .pending)

/-- The push and the result `Ok` come together. -/
theorem Inside.isOk (h : Inside cfg c pc) (hside : c.side = .tx) (hfits : pc.Fits)
    (hdone : ∀ v, (ch.waker v).state ≠ .done)
    (hstep : stepPc cfg ch i choice pc = some (e, pc')) (hnot : ∀ c r, e ≠ .ret c r)
    (h' : pc'.call = some c) :
    (∃ m, e = .push m ∧ c.msg = some m ∧ pc.isOk = false ∧ pc'.isOk = true) ∨
      (∀ m, e ≠ .push m) ∧ pc'.isOk = pc.isOk := by
  have hpcStep := pcStep_of_stepPc hstep
  by_cases hpush : ∃ m, e = .push m
  · obtain ⟨m, rfl⟩ := hpush
    obtain ⟨c', hcall, hmsg, hnone, hok⟩ := result_of_push hpcStep
    rw [h.call] at hcall
    cases hcall
    exact .inl ⟨m, rfl, hmsg, by rw [Pc.isOk, hnone], by rw [Pc.isOk, hok]⟩
  · have hno : ∀ m, e ≠ .push m := fun m he => hpush ⟨m, he⟩
    refine .inr ⟨hno, ?_⟩
    cases hold : pc.result with
    | some p =>
      rcases result_of_stepPc hstep hdone hold with he | hsame
      · exact absurd he (hnot _ _)
      · rw [Pc.isOk, Pc.isOk, hsame, hold]
    | none =>
      rw [show pc.isOk = false by rw [Pc.isOk, hold]]
      unfold Pc.isOk
      split
      · next c' m hr =>
          have hcall := Pc.call_of_result hr
          rw [h'] at hcall
          cases hcall
          exact absurd (push_of_ok hpcStep hfits hdone hside hold hr) (hno m)
      · rfl

end Inside

/-- Where an agent with frame `f` is. -/
inductive Runs (cfg : Cfg) : Frame → Pc → Prop
  | other (pc : Pc) (side : pc.side ≠ some .tx) : Runs cfg .none pc
  | inside (f : Frame) (c : Call) (pc : Pc) (makes : f.Makes c) (inside : Inside cfg c pc) :
      Runs cfg f pc
  | unpolled (timed : Bool) (m : Nat) : Runs cfg (.future timed m) .idle
  | completed : Runs cfg .completed .idle
  | leaving (f : Frame) (c : Call) (o : Option Nat) (pc : Pc) (leaves : f.Leaves)
      (way : pc.leaves = some (.retn c o .timeout)) : Runs cfg f pc
  | sink : Runs cfg .sink .idle
  | waiting (c : Call) (w : Nat) (pc : Pc) (kept : pc = .pending c w ∨ pc = .kept c w) :
      Runs cfg .sink pc

theorem Runs.ne_panicked {cfg : Cfg} {f : Frame} {pc : Pc} (h : Runs cfg f pc) (hf : f ≠ .none) :
    pc ≠ .panicked := by
  rintro rfl
  cases h with
  | other _ side => exact hf rfl
  | inside _ c _ makes inside => cases inside.call
  | leaving _ c o _ leaves way => cases way
  | waiting c w _ kept => rcases kept with hpc | hpc <;> cases hpc

/-! ## What one step does -/

section Does

variable {ι V : Type} [DecidableEq ι] [Fintype ι]

/-- What becomes of the item of agent `i` in a step with effect `e` from `pc` to `pc'`. -/
inductive Handles (f : Frame) (pc : Pc) (e : Eff) (f' : Frame) (pc' : Pc) :
    Option (Nat × Fate) → Prop
  | push (m : Nat) (he : e = .push m) (item : f.item = some m) (item' : f'.item = some m)
      (ok : pc.isOk = false) (ok' : pc'.isOk = true) : Handles f pc e f' pc' none
  | keep (he : ∀ m, e ≠ .push m) (item : f'.item = f.item) (ok : pc'.isOk = pc.isOk) :
      Handles f pc e f' pc' none
  | settle (m : Nat) (fate : Fate) (he : ∀ m, e ≠ .push m) (item : f.item = some m)
      (item' : f'.item = none) (ok : fate = .ok ↔ pc.isOk = true) :
      Handles f pc e f' pc' (some (m, fate))

/-- The steps of the system. -/
inductive Does (cfg : Cfg) (s : St ι V) : St ι V → Prop
  | chan (a : Channel.Act ι) (ch : Channel.St ι) (allowed : s.Allows a)
      (step : Channel.step cfg s.ch a = some ch) : Does cfg s ⟨ch, s.frame, s.item⟩
  | share (x : Side) (j : ι) : Does cfg s ⟨s.ch.addHandle x j, s.frame, s.item⟩
  | same : Does cfg s s
  | give (i : ι) (v : V) (f : Frame) (pc : Pc) (old : (s.frame i).item = none)
      (item : f.item = some s.ch.nextMsg) (runs : Runs cfg f pc) (fits : pc.Fits)
      (ok : pc.isOk = false) : Does cfg s (s.give i v f pc)
  | turn (i : ι) (e : Eff) (f : Frame) (pc : Pc) (fate : Option (Nat × Fate))
      (notDone : ∀ v, ((s.ch.apply i e).waker v).state ≠ .done) (runs : Runs cfg f pc)
      (fits : pc.Fits) (handles : Handles (s.frame i) (s.ch.pc i) e f pc fate) :
      Does cfg s ((St.turn ⟨s.ch.apply i e, s.frame, s.item⟩ i f pc).settle fate)

variable {cfg : Cfg} {s t : St ι V} {i : ι}

omit [DecidableEq ι] [Fintype ι] in
theorem abandonPc_leaves (c : Call) (w : Nat) :
    (abandonPc cfg c w).leaves = some (.retn c (some w) .timeout) := by
  unfold abandonPc
  split_ifs <;> rfl

omit [DecidableEq ι] [Fintype ι] in
theorem abandonPc_fits (c : Call) (w : Nat) : (abandonPc cfg c w).Fits := by
  unfold abandonPc
  split_ifs
  · exact ⟨trivial, rfl⟩
  · exact trivial

variable {c : Call}

theorem isOk_of_leaves {pc : Pc} {o : Option Nat}
    (h : pc.leaves = some (.retn c o .timeout)) : pc.isOk = false := by
  rw [Pc.isOk, Pc.result_of_leaves h]

variable {f : Frame}

/-- A step that only changes frame and program counter. -/
theorem does_turn {pc : Pc} (hdone : ∀ v, (s.ch.waker v).state ≠ .done)
    (hruns : Runs cfg f pc) (hfits : pc.Fits) (hitem : f.item = (s.frame i).item)
    (hok : pc.isOk = (s.ch.pc i).isOk) : Does cfg s (s.turn i f pc) :=
  .turn i .skip f pc none hdone hruns hfits (.keep nofun hitem hok)

/-- The start of `abandon_send_waker`. -/
theorem does_abandon {w : Nat} (hdone : ∀ v, (s.ch.waker v).state ≠ .done)
    (hleaves : f.Leaves) (hitem : f.item = (s.frame i).item)
    (hpc : s.ch.pc i = .pending c w ∨ s.ch.pc i = .kept c w) :
    Does cfg s (s.turn i f (abandonPc cfg c w)) := by
  refine does_turn hdone (.leaving f c (some w) _ hleaves (abandonPc_leaves c w))
    (abandonPc_fits c w) hitem ?_
  rw [isOk_of_leaves (abandonPc_leaves c w)]
  rcases hpc with hpc | hpc <;> rw [hpc] <;> rfl

/-- The start of a sending call. -/
theorem runs_startPc (h : f.Makes c) : Runs cfg f (startPc c) := by
  refine .inside f c _ h (inside_start ?_ ?_ ?_ ?_)
  all_goals
    cases f with
    | send m | sendTimeout m overflow | trySend m => cases h; rfl
    | future timed m | polling m => obtain ⟨k, rfl⟩ := h; rfl
    | _ => exact h.elim

theorem isOk_startPc (h : f.Makes c) : (startPc c).isOk = false := by
  cases f with
  | send m | sendTimeout m overflow | trySend m => cases h; rfl
  | future timed m | polling m => obtain ⟨k, rfl⟩ := h; rfl
  | _ => exact h.elim

theorem does_give {v : V} (hold : (s.frame i).item = none)
    (hmakes : f.Makes c) (hitem : f.item = some s.ch.nextMsg) :
    Does cfg s (s.give i v f (startPc c)) :=
  .give i v f _ hold hitem (runs_startPc hmakes) (startPc_fits c) (isOk_startPc hmakes)

omit [DecidableEq ι] in
/-- A call that returns is over. -/
theorem idle_of_ret {ch : Channel.St ι} {r : Ret} {pc pc' : Pc}
    (h : PcStep cfg ch i pc (.ret c r) pc') (hfits : pc.Fits)
    (hc : c.registers = true → c.isBlocking = true) : pc' = .idle := by
  rcases cases_of_ret h with ⟨o, -, hidle⟩ | ⟨w, rfl, -⟩
  · exact hidle
  · have hblocking := hc hfits.1
    rw [hfits.2] at hblocking
    cases hblocking

/-- The item is handed back, or the send was `Ok`. -/
theorem handles_settle {f f' : Frame} {pc pc' : Pc} {r : Ret} {m : Nat} {fate : Fate}
    (hr : pc.result = some (c, r)) (hitem : f.item = some m) (hitem' : f'.item = none)
    (hok : fate = .ok ↔ ∃ m, r = .ok m) : Handles f pc (.ret c r) f' pc' (some (m, fate)) := by
  refine .settle m fate nofun hitem hitem' (hok.trans ?_)
  rw [Pc.isOk, hr]
  cases r <;> simp

omit [DecidableEq ι] in
/-- What the code around a call does with a result that the call can return. -/
theorem returned_of_makes {ch : Channel.St ι} {r : Ret} {pc pc' : Pc}
    (ready : Bool) (hmakes : f.Makes c) (hin : Inside cfg c pc) (hfits : pc.Fits)
    (hstep : PcStep cfg ch i pc (.ret c r) pc') :
    ∃ f' fate, f.returned r ready = some (f', fate) ∧ Runs cfg f' (f'.resume cfg pc') ∧
      (f'.resume cfg pc').Fits ∧ Handles f pc (.ret c r) f' (f'.resume cfg pc') fate := by
  have hresult := result_of_ret hstep
  have hreturns := hin.returns r hresult
  have hside : (Pc.idle).side ≠ some .tx := nofun
  cases f with
  | send m =>
    cases hmakes
    obtain rfl := idle_of_ret hstep hfits fun _ => rfl
    cases r with
    | ok | disconnected =>
      exact ⟨_, _, rfl, .other _ hside, trivial, handles_settle hresult rfl rfl (by simp)⟩
    | _ => cases hreturns
  | sendTimeout m overflow =>
    cases hmakes
    obtain rfl := idle_of_ret hstep hfits fun _ => rfl
    cases r with
    | ok | disconnected | timeout =>
      exact ⟨_, _, rfl, .other _ hside, trivial, handles_settle hresult rfl rfl (by simp)⟩
    | _ => cases hreturns
  | trySend m =>
    cases hmakes
    obtain rfl := idle_of_ret hstep hfits nofun
    cases r with
    | ok | disconnected | full =>
      exact ⟨_, _, rfl, .other _ hside, trivial, handles_settle hresult rfl rfl (by simp)⟩
    | _ => cases hreturns
  | future timed m =>
    obtain ⟨k, rfl⟩ := hmakes
    cases r with
    | ok | disconnected =>
      exact ⟨_, _, rfl, .completed, trivial, handles_settle hresult rfl rfl (by simp)⟩
    | pending =>
      obtain ⟨w, rfl⟩ := hin.pending hresult
      obtain rfl : pc' = .pending _ w := by cases hstep <;> first | rfl | contradiction
      refine ⟨_, none, rfl, ?_⟩
      split_ifs
      · -- the timer was ready
        exact ⟨.leaving _ _ _ _ trivial (abandonPc_leaves _ w), abandonPc_fits _ w,
          .keep nofun rfl (isOk_of_leaves (abandonPc_leaves _ w))⟩
      · exact ⟨.inside _ _ _ ⟨k, rfl⟩ (inside_start rfl rfl rfl rfl), hfits,
          .keep nofun rfl rfl⟩
    | _ => cases hreturns
  | polling m =>
    obtain ⟨k, rfl⟩ := hmakes
    have hruns : Runs cfg .sink pc' ∧ pc'.Fits := by
      rcases cases_of_ret hstep with ⟨o, -, rfl⟩ | ⟨w, rfl, ⟨-, rfl⟩ | ⟨-, rfl⟩⟩
      · exact ⟨.sink, trivial⟩
      · exact ⟨.waiting _ w _ (.inl rfl), hfits⟩
      · exact ⟨.waiting _ w _ (.inr rfl), hfits⟩
    cases r with
    | ok | disconnected | pending =>
      exact ⟨_, _, rfl, hruns.1, hruns.2, handles_settle hresult rfl rfl (by simp)⟩
    | _ => cases hreturns
  | _ => exact hmakes.elim

variable {choice : Bool}

omit [Fintype ι] in
/-- A step without a result. -/
theorem goes_eq {e : Eff} {pc' : Pc} (he : ∀ c r, e ≠ .ret c r) :
    St.goes cfg s i choice e pc' = (St.turn ⟨s.ch.apply i e, s.frame, s.item⟩ i (s.frame i)
      ((s.frame i).afterFirst (s.ch.pc i) pc')).settle none := by
  have hturn : St.turn ⟨s.ch.apply i e, s.frame, s.item⟩ i (s.frame i)
      ((s.frame i).afterFirst (s.ch.pc i) pc') =
      ⟨(s.ch.apply i e).setPc i ((s.frame i).afterFirst (s.ch.pc i) pc'), s.frame, s.item⟩ := by
    simp [St.turn]
  cases e with
  | ret c r => exact absurd rfl (he c r)
  | _ => exact hturn.symm

theorem afterFirst_cases (f : Frame) (pc pc' : Pc) :
    f.afterFirst pc pc' = pc' ∨ ∃ m c o, f = .sendTimeout m true ∧ pc = .sendFirst c o ∧
      pc'.isOk = false ∧ f.afterFirst pc pc' = .retn c o .timeout := by
  unfold Frame.afterFirst
  split
  · exact .inr ⟨_, _, _, rfl, rfl, rfl, rfl⟩
  · exact .inl rfl

/-- A step inside a sending call. -/
theorem does_inside {flavor : Flavor} {e : Eff} {pc' : Pc}
    (hfits : (s.ch.pc i).Fits) (hdone : ∀ v, (s.ch.waker v).state ≠ .done)
    (hmakes : (s.frame i).Makes c) (hin : Inside flavor.toCfg c (s.ch.pc i))
    (hstep : stepPc flavor.toCfg s.ch i choice (s.ch.pc i) = some (e, pc')) :
    Does flavor.toCfg s (St.goes flavor.toCfg s i choice e pc') := by
  have hpcStep := pcStep_of_stepPc hstep
  have hnotDone := (move_of_pcStep hpcStep hfits).notDone (i := i) hdone
  rcases hin.step flavor.unbounded hmakes.side hfits hdone hstep with ⟨r, rfl⟩ | ⟨hnot, hin'⟩
  · obtain ⟨f', fate, hret, hruns, hfits', hhandles⟩ :=
      returned_of_makes choice hmakes hin hfits hpcStep
    simp only [St.goes, St.returned, hret]
    exact .turn i _ f' _ fate hnotDone hruns hfits' hhandles
  · rw [goes_eq hnot]
    have hok := hin.isOk hmakes.side hfits hdone hstep hnot hin'.call
    rcases afterFirst_cases (s.frame i) (s.ch.pc i) pc' with
      hsame | ⟨m, c', o, hf, hpc, hok', hlate⟩
    · rw [hsame]
      refine .turn i e _ pc' none hnotDone (.inside _ c _ hmakes hin')
        (fits_of_pcStep hpcStep hfits) ?_
      rcases hok with ⟨m, he, hmsg, hok, hok'⟩ | ⟨he, hok⟩
      · exact .push m he (hmakes.msg ▸ hmsg) (hmakes.msg ▸ hmsg) hok hok'
      · exact .keep he rfl hok
    · -- the deadline is out of range
      rw [hlate]
      have hcall := hin.call
      rw [hpc] at hcall
      cases hcall
      rw [hf] at hmakes
      cases hmakes
      rcases hok with ⟨m', he, hmsg, hok, hpush⟩ | ⟨he, hok⟩
      · rw [hok'] at hpush
        cases hpush
      · refine .turn i e _ _ none hnotDone ?_ trivial (.keep he rfl ?_)
        · rw [hf]
          exact .inside _ _ _ rfl
            ⟨rfl, nofun, fun r hr => by cases hr; rfl, nofun, fun _ => rfl⟩
        · rw [hpc]
          rfl

/-- A step inside `abandon_send_waker`. -/
theorem does_leaving {o : Option Nat} {e : Eff} {pc' : Pc}
    (hfits : (s.ch.pc i).Fits) (hdone : ∀ v, (s.ch.waker v).state ≠ .done)
    (hleaves : (s.frame i).Leaves) (hway : (s.ch.pc i).leaves = some (.retn c o .timeout))
    (hstep : PcStep cfg s.ch i (s.ch.pc i) e pc') : Does cfg s (St.goes cfg s i choice e pc') := by
  have hnotDone := (move_of_pcStep hstep hfits).notDone (i := i) hdone
  have hresult := Pc.result_of_leaves hway
  rcases leaves_of_pcStep hstep hway with ⟨rfl, rfl⟩ | ⟨hway', hpush, hret⟩
  · simp only [St.goes, St.returned]
    generalize hf : s.frame i = f at hleaves
    cases f with
    | dropping m =>
      refine .turn i _ .none .idle _ hnotDone (.other _ nofun) trivial ?_
      rw [hf]
      exact handles_settle hresult rfl rfl (by simp)
    | timingOut m =>
      refine .turn i _ .completed .idle _ hnotDone .completed trivial ?_
      rw [hf]
      exact handles_settle hresult rfl rfl (by simp)
    | sinkDrop =>
      refine .turn i _ .none .idle none hnotDone (.other _ nofun) trivial ?_
      rw [hf]
      exact .keep nofun rfl (by rw [isOk_of_leaves hway]; rfl)
    | _ => exact hleaves.elim
  · have hfirst : (s.frame i).afterFirst (s.ch.pc i) pc' = pc' := by
      generalize s.frame i = f at hleaves
      cases f <;> first | rfl | exact hleaves.elim
    rw [goes_eq hret, hfirst]
    exact .turn i e _ pc' none hnotDone (.leaving _ c o _ hleaves hway')
      (fits_of_pcStep hstep hfits)
      (.keep hpush rfl (by rw [isOk_of_leaves hway', isOk_of_leaves hway]))

/-- A step of a send or a receive. -/
theorem does_go {flavor : Flavor} {e : Eff} {pc' : Pc}
    (hfits : (s.ch.pc i).Fits) (hdone : ∀ v, (s.ch.waker v).state ≠ .done)
    (hruns : Runs flavor.toCfg (s.frame i) (s.ch.pc i)) (hf : s.frame i ≠ .none)
    (hstep : stepPc flavor.toCfg s.ch i choice (s.ch.pc i) = some (e, pc')) :
    Does flavor.toCfg s (St.goes flavor.toCfg s i choice e pc') := by
  generalize hframe : s.frame i = f at hruns
  generalize hpc : s.ch.pc i = pc at hruns
  cases hruns with
  | other => exact absurd hframe hf
  | inside _ c _ makes inside =>
    exact does_inside hfits hdone (hframe ▸ makes) (hpc ▸ inside) hstep
  | leaving _ c o _ leaves way =>
    exact does_leaving hfits hdone (hframe ▸ leaves) (hpc ▸ way) (pcStep_of_stepPc hstep)
  | unpolled | completed | sink =>
    rw [hpc] at hstep
    cases hstep
  | waiting c w _ kept =>
    rcases kept with rfl | rfl
    · rw [hpc] at hstep; cases hstep
    · rw [hpc] at hstep; cases hstep

/-- **Every action is one of `Does`.** -/
theorem does_of_step {flavor : Flavor} {a : Act ι V}
    (hfits : ∀ i, (s.ch.pc i).Fits) (hdone : ∀ v, (s.ch.waker v).state ≠ .done)
    (hruns : ∀ i, Runs flavor.toCfg (s.frame i) (s.ch.pc i))
    (hstep : step flavor.toCfg s a = some t) : Does flavor.toCfg s t := by
  cases a with
  | chan a =>
    simp only [step] at hstep
    split_ifs at hstep with hallowed
    obtain ⟨ch, hch, rfl⟩ := Option.map_eq_some_iff.mp hstep
    exact .chan a ch hallowed hch
  | share i j =>
    simp only [step] at hstep
    split at hstep
    · cases hstep; exact .share _ j
    · cases hstep
  | send i v | sendTimeout i v overflow | trySend i v =>
    simp only [step] at hstep
    split_ifs at hstep with hfree
    cases hstep
    exact does_give (by rw [hfree.1]; rfl) rfl rfl
  | create i timed v =>
    simp only [step] at hstep
    split_ifs at hstep with hfree
    cases hstep
    exact .give i v _ .idle (by rw [hfree.1]; rfl) rfl (.unpolled timed _) trivial rfl
  | poll i k =>
    simp only [step] at hstep
    split at hstep
    · next timed m hf hpc =>
        cases hstep
        exact does_turn hdone (runs_startPc ⟨k, rfl⟩) (startPc_fits _) (by rw [hf])
          (by rw [hpc]; rfl)
    · next timed m c w hf hpc =>
        cases hstep
        refine does_turn hdone ?_ ⟨rfl, nofun⟩ (by rw [hf]) (by rw [hpc]; rfl)
        exact .inside _ _ _ ⟨k, rfl⟩ (inside_start rfl rfl rfl rfl)
    · cases hstep; exact .same
    · cases hstep
  | dropFuture i =>
    simp only [step] at hstep
    split at hstep
    · next timed m hf hpc =>
        cases hstep
        refine .turn i .skip .none .idle _ hdone (.other _ nofun) trivial
          (.settle m .dropped nofun (by rw [hf]; rfl) rfl ?_)
        rw [hpc]
        exact ⟨nofun, nofun⟩
    · next timed m c w hf hpc =>
        cases hstep
        exact does_abandon hdone trivial (by rw [hf]; rfl) (.inl hpc)
    · next hf =>
        cases hstep
        have hpc : s.ch.pc i = .idle := by
          have hrun := hruns i
          rw [hf] at hrun
          generalize s.ch.pc i = pc at hrun
          cases hrun with
          | inside _ c _ makes => exact makes.elim
          | completed => rfl
          | leaving _ c o _ leaves => exact leaves.elim
        exact does_turn hdone (.other _ nofun) trivial (by rw [hf]; rfl) (by rw [hpc])
    · cases hstep
  | newSink i =>
    simp only [step] at hstep
    split_ifs at hstep with hfree
    cases hstep
    exact does_turn hdone .sink trivial (by rw [hfree.1]; rfl) (by rw [hfree.2.1])
  | pollSink i k v =>
    simp only [step] at hstep
    split at hstep
    · next hf hpc =>
        cases hstep
        exact does_give (by rw [hf]; rfl) ⟨k, rfl⟩ rfl
    · next c w hf hpc =>
        cases hstep
        exact .give i v _ _ (by rw [hf]; rfl) rfl
          (.inside _ _ _ ⟨k, rfl⟩ (inside_start rfl rfl rfl rfl)) ⟨rfl, nofun⟩ rfl
    · next c w hf hpc =>
        cases hstep
        exact .give i v _ _ (by rw [hf]; rfl) rfl
          (.inside _ _ _ ⟨k, rfl⟩ (inside_start rfl rfl rfl rfl)) ⟨rfl, nofun⟩ rfl
    · cases hstep
  | dropSink i =>
    simp only [step] at hstep
    split at hstep
    · next hf hpc =>
        cases hstep
        exact does_turn hdone (.other _ nofun) trivial (by rw [hf]; rfl) (by rw [hpc])
    · next c w hf hpc =>
        cases hstep
        exact does_abandon hdone trivial (by rw [hf]; rfl) (.inl hpc)
    · next c w hf hpc =>
        cases hstep
        exact does_abandon hdone trivial (by rw [hf]; rfl) (.inr hpc)
    · cases hstep
  | go i choice =>
    simp only [step] at hstep
    split_ifs at hstep with hf
    obtain ⟨⟨e, pc'⟩, hpc, rfl⟩ := Option.map_eq_some_iff.mp hstep
    exact does_go (hfits i) hdone (hruns i) hf hpc

end Does

end Crossfire.Channel.Items
