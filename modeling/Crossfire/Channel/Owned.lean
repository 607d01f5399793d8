import Crossfire.Channel.ItemSteps

/-!
# A sent item is owned by exactly one party

In every run of the sends of a channel an item is copied out of its `MaybeUninit` at most once, and
the copy is the one the result of the send speaks of (`item_owned_once`). The invariant `Inv` is
kept by each kind of step that `does_of_step` lists.
-/

set_option autoImplicit false

namespace Crossfire.Channel.Items

open Lib.Interleaving Crossfire.Waker Crossfire.Registry Function

/-! ## The invariant -/

section Invariant

variable {ι V : Type}

/-- The one party that has item number `m`. -/
inductive Owned (s : St ι V) (m : Nat) : Item V → Prop
  /-- The send that has not ended. If it is about to return `Ok` then the item is in the queue. -/
  | held (i : ι) (v : V) (frame : (s.frame i).item = some m)
      (only : ∀ j, (s.frame j).item = some m → j = i)
      (pushed : s.ch.pushed.count m = if (s.ch.pc i).isOk then 1 else 0) : Owned s m ⟨v, 0, 0, none⟩
  /-- The queue. -/
  | sent (v : V) (pushed : s.ch.pushed.count m = 1) : Owned s m ⟨v, 0, 0, some .ok⟩
  /-- The caller. -/
  | back (v : V) (e : SendErr) (pushed : s.ch.pushed.count m = 0) :
      Owned s m ⟨v, 1, 0, some (.err e v)⟩
  /-- Nobody any more. -/
  | dropped (v : V) (pushed : s.ch.pushed.count m = 0) : Owned s m ⟨v, 0, 1, some .dropped⟩

/-- Every item is where its send says it is. -/
structure Inv (cfg : Cfg) (s : St ι V) : Prop where
  fits : ∀ i, (s.ch.pc i).Fits
  notDone : ∀ v, (s.ch.waker v).state ≠ .done
  runs : ∀ i, Runs cfg (s.frame i) (s.ch.pc i)
  fresh : ∀ m, s.ch.nextMsg ≤ m → s.item m = none ∧ m ∉ s.ch.pushed
  frames : ∀ i m, (s.frame i).item = some m → ∃ v, s.item m = some (.new v)
  items : ∀ m item, s.item m = some item → Owned s m item

variable {cfg : Cfg} {s t : St ι V} {i : ι}

variable {m : Nat}

/-- An item that a step does not touch. -/
theorem Owned.congr {item : Item V} (h : Owned s m item)
    (hframe : ∀ j, (t.frame j).item = some m ↔ (s.frame j).item = some m)
    (hpushed : t.ch.pushed.count m = s.ch.pushed.count m)
    (hok : ∀ j, (s.frame j).item = some m → (t.ch.pc j).isOk = (s.ch.pc j).isOk) :
    Owned t m item := by
  cases h with
  | held i v frame only pushed =>
    refine .held i v ((hframe i).mpr frame) (fun j hj => only j ((hframe j).mp hj)) ?_
    rw [hpushed, pushed, hok i frame]
  | sent v pushed => exact .sent v (hpushed.trans pushed)
  | back v e pushed => exact .back v e (hpushed.trans pushed)
  | dropped v pushed => exact .dropped v (hpushed.trans pushed)

theorem Inv.lt_nextMsg (h : Inv cfg s) (hi : (s.frame i).item = some m) : m < s.ch.nextMsg := by
  by_contra hle
  obtain ⟨v, hv⟩ := h.frames i m hi
  rw [(h.fresh m (Nat.le_of_not_lt hle)).1] at hv
  cases hv

/-- The item of a frame is in no other frame, and it is in the queue if the send succeeded. -/
theorem Inv.held (h : Inv cfg s) (hi : (s.frame i).item = some m) :
    (∀ j, (s.frame j).item = some m → j = i) ∧
      s.ch.pushed.count m = if (s.ch.pc i).isOk then 1 else 0 := by
  obtain ⟨v, hv⟩ := h.frames i m hi
  cases h.items m _ hv with
  | held j _ frame only pushed =>
    obtain rfl := only i hi
    exact ⟨only, pushed⟩

/-- The call gives its message away or keeps it. -/
theorem owned_settle {v : V} {fate : Fate} {ok : Bool} (hok : fate = .ok ↔ ok = true)
    (hpushed : s.ch.pushed.count m = if ok then 1 else 0) :
    Owned s m ((Item.new v).settle fate) := by
  cases fate with
  | ok =>
    rw [hok.mp rfl] at hpushed
    exact .sent v hpushed
  | back e =>
    rw [if_neg fun h => nomatch hok.mpr h] at hpushed
    exact .back v e hpushed
  | dropped =>
    rw [if_neg fun h => nomatch hok.mpr h] at hpushed
    exact .dropped v hpushed

/-! ### Actions that are not sends -/

/-- An action of the channel that is not a send leaves the senders alone. -/
structure Quiet (s : St ι V) (ch : Channel.St ι) : Prop where
  pushed : ch.pushed = s.ch.pushed
  next : ch.nextMsg = s.ch.nextMsg
  notDone : ∀ v, (ch.waker v).state ≠ .done
  pc : ∀ j, ch.pc j = s.ch.pc j ∨
    s.frame j = .none ∧ (ch.pc j).side ≠ some .tx ∧ (ch.pc j).Fits

variable {ch : Channel.St ι}

/-- A step without an item. -/
theorem Inv.quiet (h : Inv cfg s) (hq : Quiet s ch) : Inv cfg ⟨ch, s.frame, s.item⟩ where
  fits j := by
    rcases hq.pc j with hpc | ⟨-, -, hfits⟩
    · show (ch.pc j).Fits
      rw [hpc]
      exact h.fits j
    · exact hfits
  notDone := hq.notDone
  runs j := by
    show Runs cfg (s.frame j) (ch.pc j)
    rcases hq.pc j with hpc | ⟨hf, hside, -⟩
    · rw [hpc]
      exact h.runs j
    · rw [hf]
      exact .other _ hside
  fresh m hm := by
    have hfresh := h.fresh m (hq.next ▸ hm)
    exact ⟨hfresh.1, hq.pushed ▸ hfresh.2⟩
  frames := h.frames
  items m item hitem := by
    refine (h.items m item hitem).congr (fun _ => Iff.rfl) (congrArg _ hq.pushed) fun j hj => ?_
    rcases hq.pc j with hpc | ⟨hf, -, -⟩
    · exact congrArg Pc.isOk hpc
    · rw [hf] at hj
      cases hj

variable [DecidableEq ι]

theorem apply_nextMsg {e : Eff} : (ch.apply i e).nextMsg = ch.nextMsg := by
  cases e with
  | wakeByRef w =>
    rw [apply_wakeByRef]
  | _ => rfl

theorem apply_pushed_of_ne {e : Eff} (he : ∀ m, e ≠ .push m) :
    (ch.apply i e).pushed = ch.pushed := by
  cases e with
  | push m => exact absurd rfl (he m)
  | wakeByRef w =>
    rw [apply_wakeByRef]
  | _ => rfl

/-- Only agent `i` moves, and it is not a sender. -/
theorem quiet_setPc {pc' : Pc} (hpushed : ch.pushed = s.ch.pushed)
    (hnext : ch.nextMsg = s.ch.nextMsg) (hdone : ∀ v, (ch.waker v).state ≠ .done)
    (hpc : ch.pc = s.ch.pc) (hf : s.frame i = .none) (hside : pc'.side ≠ some .tx)
    (hfits : pc'.Fits) : Quiet s (ch.setPc i pc') := by
  refine ⟨hpushed, hnext, hdone, fun j => ?_⟩
  rcases eq_or_ne j i with rfl | hj
  · rw [setPc_pc_self]
    exact .inr ⟨hf, hside, hfits⟩
  · rw [setPc_pc_of_ne hj, hpc]
    exact .inl rfl

variable {pc : Pc}

theorem Runs.side_ne (h : Runs cfg .none pc) : pc.side ≠ some .tx := by
  cases h with
  | other _ side => exact side
  | inside _ c _ makes => exact makes.elim
  | leaving _ c o _ leaves => exact leaves.elim

/-- The starts and ends of calls that are not sends. -/
theorem quiet_of_callStep {a : Channel.Act ι} (h : Inv cfg s)
    (hallowed : s.Allows a) (hcall : CallStep cfg s.ch a ch) : Quiet s ch := by
  have hside {i : ι} (hf : s.frame i = .none) : (s.ch.pc i).side ≠ some .tx := by
    have hruns := h.runs i
    rw [hf] at hruns
    exact hruns.side_ne
  have hstay {ch : Channel.St ι} (hpushed : ch.pushed = s.ch.pushed)
      (hnext : ch.nextMsg = s.ch.nextMsg) (hwaker : ch.waker = s.ch.waker)
      (hpc : ch.pc = s.ch.pc) : Quiet s ch :=
    ⟨hpushed, hnext, hwaker ▸ h.notDone, fun j => .inl (by rw [hpc])⟩
  cases hcall with
  | call i c pc handle msg =>
    obtain ⟨hf, hrx⟩ : s.frame i = .none ∧ c.side = .rx := hallowed
    have hcount : s.ch.countMsg c = s.ch := by
      cases c <;> first | rfl | cases hrx
    rw [hcount]
    refine quiet_setPc rfl rfl h.notDone rfl hf ?_ (startPc_fits c)
    rw [startPc_side, hrx]
    nofun
  | poll i c c' w pc' pc next =>
    have hf : s.frame i = .none := hallowed
    have hpoll : c.side ≠ .tx := by
      rintro htx
      apply hside hf
      rcases pc with hpc | hpc <;> rw [hpc] <;> exact congrArg some htx
    cases next with
    | item => exact quiet_setPc rfl rfl h.notDone rfl hf nofun rfl
    | send | sink => exact absurd rfl hpoll
  | dropFuture i c w pc kind =>
    have hf : s.frame i = .none := hallowed
    refine quiet_setPc rfl rfl h.notDone rfl hf ?_ ⟨trivial, rfl⟩
    have hold := hside hf
    rcases pc with hpc | hpc <;> rw [hpc] at hold <;> exact hold
  | dropSingle i c w pc kind =>
    have hf : s.frame i = .none := hallowed
    refine quiet_setPc rfl rfl h.notDone rfl hf ?_ trivial
    have hold := hside hf
    rcases pc with hpc | hpc <;> rw [hpc] at hold <;> exact hold
  | dropHandle | clone | regSelect | cancelSelect => exact hstay rfl rfl rfl rfl
  | dropLast i _ _ _ _ _ goes | readTaken i _ _ _ goes =>
    have hf : s.frame i = .none := hallowed
    cases goes <;> exact quiet_setPc rfl rfl h.notDone rfl hf nofun trivial
  | readToken | dropToken => exact quiet_setPc rfl rfl h.notDone rfl hallowed nofun trivial

/-! ### Steps of a send -/

theorem forall_update_pc (P : Frame → Pc → Prop) (f : Frame)
    (hpc : ch.pc = s.ch.pc) (hi : P f pc) (h : ∀ j, P (s.frame j) (s.ch.pc j)) (j : ι) :
    P (update s.frame i f j) ((ch.setPc i pc).pc j) := by
  rcases eq_or_ne j i with rfl | hj
  · rw [update_self, setPc_pc_self]
    exact hi
  · rw [update_of_ne hj, setPc_pc_of_ne hj, hpc]
    exact h j

variable {f : Frame}

/-- The items that are not the one of agent `i` stay where they are. -/
theorem Owned.setFrame {item : Item V}
    {items : Nat → Option (Item V)} (h : Owned s m item) (hpc : ch.pc = s.ch.pc)
    (hpushed : ch.pushed.count m = s.ch.pushed.count m) (hold : (s.frame i).item ≠ some m)
    (hnew : f.item ≠ some m) :
    Owned ⟨ch.setPc i pc, update s.frame i f, items⟩ m item := by
  refine h.congr (fun j => ?_) hpushed fun j hj => ?_
  · rcases eq_or_ne j i with rfl | hj
    · show (update s.frame j f j).item = some m ↔ _
      rw [update_self]
      exact iff_of_false hnew hold
    · show (update s.frame i f j).item = some m ↔ _
      rw [update_of_ne hj]
  · have hne : j ≠ i := by
      rintro rfl
      exact hold hj
    show ((ch.setPc i pc).pc j).isOk = _
    rw [setPc_pc_of_ne hne, hpc]

/-- A send begins with its item. -/
theorem Inv.give {v : V} (h : Inv cfg s) (hold : (s.frame i).item = none)
    (hitem : f.item = some s.ch.nextMsg) (hruns : Runs cfg f pc) (hfits : pc.Fits)
    (hok : pc.isOk = false) : Inv cfg (s.give i v f pc) where
  fits := forall_update_pc (fun _ pc => pc.Fits) f rfl hfits h.fits
  notDone := h.notDone
  runs := forall_update_pc (Runs cfg) f rfl hruns h.runs
  fresh m hm := by
    have hlt : s.ch.nextMsg < m := hm
    have hfresh := h.fresh m (Nat.le_of_lt hlt)
    refine ⟨?_, hfresh.2⟩
    show update s.item s.ch.nextMsg _ m = none
    rw [update_of_ne (Nat.ne_of_gt hlt)]
    exact hfresh.1
  frames j m hj := by
    show ∃ v', update s.item s.ch.nextMsg (some (.new v)) m = some (.new v')
    have hframe : (update s.frame i f j).item = some m := hj
    rcases eq_or_ne j i with rfl | hne
    · rw [update_self, hitem] at hframe
      cases hframe
      exact ⟨v, update_self ..⟩
    · rw [update_of_ne hne] at hframe
      rw [update_of_ne (Nat.ne_of_lt (h.lt_nextMsg hframe))]
      exact h.frames j m hframe
  items m item hm := by
    have hupdate : update s.item s.ch.nextMsg (some (.new v)) m = some item := hm
    rcases eq_or_ne m s.ch.nextMsg with rfl | hne
    · rw [update_self] at hupdate
      cases hupdate
      refine .held i v ?_ (fun j hj => ?_) ?_
      · exact (congrArg Frame.item (update_self ..)).trans hitem
      -- the number is new, so no other frame has it
      · by_contra hji
        have hframe : (update s.frame i f j).item = some s.ch.nextMsg := hj
        rw [update_of_ne hji] at hframe
        exact absurd (h.lt_nextMsg hframe) (Nat.lt_irrefl _)
      · show s.ch.pushed.count s.ch.nextMsg =
          if (Channel.St.pc (.setPc _ i pc) i).isOk then 1 else 0
        rw [setPc_pc_self, hok, List.count_eq_zero.mpr (h.fresh _ (Nat.le_refl _)).2]
        rfl
    · rw [update_of_ne hne] at hupdate
      refine (h.items m item hupdate).setFrame rfl rfl ?_ ?_
      · rw [hold]
        nofun
      · rw [hitem]
        exact fun heq => hne (Option.some.inj heq).symm

/-- A step of agent `i` after which its item is still in its frame. -/
theorem Inv.stay (h : Inv cfg s) (hdone : ∀ v, (ch.waker v).state ≠ .done) (hpc : ch.pc = s.ch.pc)
    (hnext : ch.nextMsg = s.ch.nextMsg) (hruns : Runs cfg f pc) (hfits : pc.Fits)
    (hitem : f.item = (s.frame i).item)
    (hmine : ∀ m, f.item = some m → ch.pushed.count m = if pc.isOk then 1 else 0)
    (hothers : ∀ m, f.item ≠ some m → ch.pushed.count m = s.ch.pushed.count m) :
    Inv cfg ⟨ch.setPc i pc, update s.frame i f, s.item⟩ where
  fits := forall_update_pc (fun _ pc => pc.Fits) f hpc hfits h.fits
  notDone := hdone
  runs := forall_update_pc (Runs cfg) f hpc hruns h.runs
  fresh m hm := by
    have hle : s.ch.nextMsg ≤ m := hnext ▸ hm
    have hfresh := h.fresh m hle
    refine ⟨hfresh.1, ?_⟩
    show m ∉ ch.pushed
    rw [← List.count_eq_zero, hothers m, List.count_eq_zero]
    · exact hfresh.2
    · rw [hitem]
      exact fun hi => absurd (h.lt_nextMsg hi) (Nat.not_lt.mpr hle)
  frames j m hj := by
    have hframe : (update s.frame i f j).item = some m := hj
    rcases eq_or_ne j i with rfl | hne
    · rw [update_self, hitem] at hframe
      exact h.frames j m hframe
    · rw [update_of_ne hne] at hframe
      exact h.frames j m hframe
  items m item hm := by
    by_cases hi : f.item = some m
    · obtain ⟨v, hv⟩ := h.frames i m (hitem ▸ hi)
      have hm' : s.item m = some item := hm
      rw [hv] at hm'
      cases hm'
      refine .held i v ?_ (fun j hj => ?_) ?_
      · exact (congrArg Frame.item (update_self ..)).trans hi
      · by_contra hji
        have hframe : (update s.frame i f j).item = some m := hj
        rw [update_of_ne hji] at hframe
        exact hji ((h.held (hitem ▸ hi)).1 j hframe)
      · show ch.pushed.count m = if ((ch.setPc i pc).pc i).isOk then 1 else 0
        rw [setPc_pc_self]
        exact hmine m hi
    · exact (h.items m item hm).setFrame hpc (hothers m hi) (hitem ▸ hi) hi

/-- A step of agent `i` that ends its send. -/
theorem Inv.settle {fate : Fate}
    (h : Inv cfg s) (hdone : ∀ v, (ch.waker v).state ≠ .done) (hpc : ch.pc = s.ch.pc)
    (hnext : ch.nextMsg = s.ch.nextMsg) (hpushed : ch.pushed = s.ch.pushed)
    (hruns : Runs cfg f pc) (hfits : pc.Fits) (hold : (s.frame i).item = some m)
    (hitem : f.item = none) (hok : fate = .ok ↔ (s.ch.pc i).isOk = true) :
    Inv cfg ((St.turn ⟨ch, s.frame, s.item⟩ i f pc).settle (some (m, fate))) := by
  obtain ⟨v, hv⟩ := h.frames i m hold
  obtain ⟨honly, hcount⟩ := h.held hold
  have hlt := h.lt_nextMsg hold
  refine ⟨forall_update_pc (s := s) (fun _ pc => pc.Fits) f hpc hfits h.fits, hdone,
    forall_update_pc (s := s) (Runs cfg) f hpc hruns h.runs, fun m' hm' => ?_, fun j m' hj => ?_,
    fun m' item hm' => ?_⟩
  · have hle : s.ch.nextMsg ≤ m' := hnext ▸ hm'
    have hfresh := h.fresh m' hle
    refine ⟨?_, hpushed ▸ hfresh.2⟩
    exact (update_of_ne (by omega) ..).trans hfresh.1
  · have hframe : (update s.frame i f j).item = some m' := hj
    rcases eq_or_ne j i with rfl | hne
    · rw [update_self, hitem] at hframe
      cases hframe
    · rw [update_of_ne hne] at hframe
      have hm : m' ≠ m := by
        rintro rfl
        exact hne (honly j hframe)
      obtain ⟨v', hv'⟩ := h.frames j m' hframe
      exact ⟨v', (update_of_ne hm ..).trans hv'⟩
  · have hupdate : update s.item m ((s.item m).map (Item.settle · fate)) m' = some item :=
      hm'
    rcases eq_or_ne m' m with rfl | hne
    · rw [update_self, hv] at hupdate
      cases hupdate
      refine owned_settle hok ?_
      exact (congrArg (List.count m') hpushed).trans hcount
    · rw [update_of_ne hne] at hupdate
      refine (h.items m' item hupdate).setFrame hpc (congrArg _ hpushed) ?_ ?_
      · rw [hold]
        exact fun heq => hne (Option.some.inj heq).symm
      · rw [hitem]
        nofun

/-- A step of a send. -/
theorem Inv.turn {e : Eff} {fate : Option (Nat × Fate)} (h : Inv cfg s)
    (hdone : ∀ v, ((s.ch.apply i e).waker v).state ≠ .done) (hruns : Runs cfg f pc)
    (hfits : pc.Fits) (hhandles : Handles (s.frame i) (s.ch.pc i) e f pc fate) :
    Inv cfg ((St.turn ⟨s.ch.apply i e, s.frame, s.item⟩ i f pc).settle fate) := by
  have hpc : (s.ch.apply i e).pc = s.ch.pc := apply_pc ..
  cases hhandles with
  | push m he item item' ok ok' =>
    subst he
    refine h.stay hdone hpc apply_nextMsg hruns hfits (item'.trans item.symm) ?_ ?_
    · intro m' hm'
      rw [item'] at hm'
      cases hm'
      show (s.ch.pushed ++ [m]).count m = _
      rw [List.count_append, (h.held item).2, ok, ok', List.count_singleton_self]
      rfl
    · intro m' hm'
      rw [item'] at hm'
      show (s.ch.pushed ++ [m]).count m' = _
      rw [List.count_append, List.count_singleton, if_neg, Nat.add_zero]
      simpa using fun heq => hm' (congrArg some heq)
  | keep he item ok =>
    have hpushed : (s.ch.apply i e).pushed = s.ch.pushed := apply_pushed_of_ne he
    refine h.stay hdone hpc apply_nextMsg hruns hfits item ?_ ?_
    · intro m hm
      rw [hpushed, ok]
      exact (h.held (item ▸ hm)).2
    · intro m _
      rw [hpushed]
  | settle m fate he item item' ok =>
    exact h.settle hdone hpc apply_nextMsg (apply_pushed_of_ne he) hruns hfits item item' ok

theorem Inv.share {x : Side} {j : ι} (h : Inv cfg s) :
    Inv cfg ⟨s.ch.addHandle x j, s.frame, s.item⟩ :=
  ⟨h.fits, h.notDone, h.runs, h.fresh, h.frames, fun m item hitem =>
    (h.items m item hitem).congr (fun _ => Iff.rfl) rfl fun _ _ => rfl⟩

theorem inv_new (a b : ι) : Inv cfg (St.new a b : St ι V) :=
  ⟨fun _ => trivial, nofun, fun _ => .other _ nofun, fun _ _ => ⟨rfl, nofun⟩, nofun, nofun⟩

/-! ### Runs -/

variable [Fintype ι]

/-- A receive has no item. -/
theorem quiet_of_go {e : Eff} {pc' : Pc} (h : Inv cfg s) (hf : s.frame i = .none)
    (hstep : PcStep cfg s.ch i (s.ch.pc i) e pc') : Quiet s ((s.ch.apply i e).setPc i pc') := by
  have hruns := h.runs i
  rw [hf] at hruns
  have hside := hruns.side_ne
  have hmove := move_of_pcStep hstep (h.fits i)
  have hpush : ∀ m, e ≠ .push m := by
    rintro m rfl
    exact hside (side_of_push hstep)
  refine quiet_setPc (apply_pushed_of_ne hpush) apply_nextMsg (hmove.notDone h.notDone)
    (apply_pc ..) hf ?_ (fits_of_pcStep hstep (h.fits i))
  rcases hmove.side with hnone | hsame
  · rw [hnone]
    nofun
  · rw [hsame]
    exact hside

theorem quiet_of_step {a : Channel.Act ι} (h : Inv cfg s)
    (hallowed : s.Allows a) (hstep : Channel.step cfg s.ch a = some ch) : Quiet s ch := by
  rcases step_cases hstep with ⟨i, choice, e, pc', rfl, hpc, rfl⟩ | hcall
  · exact quiet_of_go h hallowed hpc
  · exact quiet_of_callStep h hallowed hcall

/-- Every move of a call keeps each message owned once. -/
theorem Inv.does (h : Inv cfg s) (hdoes : Does cfg s t) : Inv cfg t := by
  cases hdoes with
  | chan a ch allowed step => exact h.quiet (quiet_of_step h allowed step)
  | share x j => exact h.share
  | same => exact h
  | give i v f pc old item runs fits ok => exact h.give old item runs fits ok
  | turn i e f pc fate notDone runs fits handles => exact h.turn notDone runs fits handles

theorem inv_of_reachable {flavor : Flavor} (h : Reachable (system flavor) s) :
    Inv flavor.toCfg s := by
  refine h.invariant (P := Inv flavor.toCfg) ?_ ?_
  · rintro _ ⟨a, b, -, rfl⟩
    exact inv_new a b
  · intro s a t hinv _ hstep
    exact hinv.does (does_of_step hinv.fits hinv.notDone hinv.runs hstep)

end Invariant

/-! ## The result -/

/-- **In every run, every item given to a send is with exactly one party.** While the send lasts it
is with the send, or in the queue if the send is about to return `Ok`. When the send has ended, it
was pushed once and the result is `Ok`, or it was handed back in the error and never pushed, or it
was dropped once with its future and never pushed. No send gets to an `unreachable!()`. -/
theorem item_owned_once {ι V : Type} [DecidableEq ι] [Fintype ι] {flavor : Flavor} {s : St ι V}
    (h : Reachable (system flavor) s) :
    (∀ m item, s.item m = some item → Owned s m item) ∧
      ∀ i, s.frame i ≠ .none → s.ch.pc i ≠ .panicked :=
  ⟨(inv_of_reachable h).items, fun i hf => ((inv_of_reachable h).runs i).ne_panicked hf⟩

/-- A bounded channel of one item. The first item is sent; the second one is dropped with its
future, which was polled once and had to wait. -/
theorem item_owned_once_dropped :
    ∃ s : St (Fin 2) Nat, Reachable (system ⟨⟨some 1, fun _ => .multi, (· == ·), true⟩, nofun⟩) s ∧
      s.item 0 = some ⟨10, 0, 0, some .ok⟩ ∧ s.item 1 = some ⟨11, 0, 1, some .dropped⟩ ∧
      Owned s 0 ⟨10, 0, 0, some .ok⟩ ∧ Owned s 1 ⟨11, 0, 1, some .dropped⟩ := by
  have hnew : Reachable (system ⟨⟨some 1, fun _ => .multi, (· == ·), true⟩, nofun⟩)
      (St.new (0 : Fin 2) 1 : St (Fin 2) Nat) := .init ⟨0, 1, by decide, rfl⟩
  obtain ⟨s, hs, hsent, hdropped⟩ := hnew.exists_of_run
    [.trySend 0 10, .go 0 false, .go 0 false, .go 0 false, .go 0 false, .create 0 false 11,
      .poll 0 7, .go 0 false, .go 0 true, .go 0 false, .go 0 false, .go 0 false, .go 0 false,
      .go 0 false, .dropFuture 0, .go 0 false, .go 0 false, .go 0 false, .go 0 false]
    (fun s => s.item 0 = some ⟨10, 0, 0, some .ok⟩ ∧
      s.item 1 = some ⟨11, 0, 1, some .dropped⟩)
    (by decide +kernel)
  have howned := (item_owned_once hs).1
  exact ⟨s, hs, hsent, hdropped, howned 0 _ hsent, howned 1 _ hdropped⟩

end Crossfire.Channel.Items
