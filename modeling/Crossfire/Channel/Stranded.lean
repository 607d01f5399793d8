import Crossfire.Channel.Plain

/-!
# Waiters of a channel with many waiters

In a run of blocking calls without a deadline (`Plain`) the messages in the queue are a duty of the
agents that have not finished waking for them: a sender that has pushed and is still inside `fire`,
or a receiver that was woken and has not yet tried the queue. A waiter whose double check has failed
and whose waker still stands in the registry has at least as many such agents before it as there are
messages (`Manned`); the same holds for the senders and the free slots of the queue.

`fire` goes on after a waker that was not yet waiting. It means to stop at the last number that was
given out when it popped its first waker, but it compares with that number minus one, so it can stop
one waker too early (`receiver_stranded`). `Manned` holds in the runs in which no waiter is left
behind by this (`stopOk`), and then nobody sleeps on an available queue (`multi_no_stranded`).
-/

set_option autoImplicit false

namespace Crossfire.Channel

open Lib.Interleaving Crossfire.Waker Crossfire.Registry

/-! ## What there is to take -/

section Avail

variable {ι : Type}

/-- How many waiters of a side could go on: the messages, or the free slots. -/
def St.avail (cfg : Cfg) (s : St ι) : Side → Nat
  | .rx => s.queue.length
  | .tx => cfg.cap.getD 0 - s.queue.length

variable {cfg : Cfg} {s t : St ι} {n : Nat} {x : Side}

theorem avail_congr (h : t.queue = s.queue) (x : Side) : t.avail cfg x = s.avail cfg x := by
  cases x <;> simp only [St.avail, h]

theorem avail_eq_zero (hcap : cfg.cap = some n) (h : ¬ s.available cfg x) :
    s.avail cfg x = 0 := by
  cases x with
  | rx => simpa [St.available, St.avail] using h
  | tx =>
    have hfull : n ≤ s.queue.length := by simpa [St.available, isFull, hcap] using h
    simp only [St.avail, hcap, Option.getD_some]
    omega

theorem avail_ne_zero (hcap : cfg.cap = some n) (h : s.available cfg x) : s.avail cfg x ≠ 0 := by
  cases x with
  | rx => simpa [St.available, St.avail] using h
  | tx =>
    have hroom : s.queue.length < n := by simpa [St.available, isFull, hcap] using h
    simp only [St.avail, hcap, Option.getD_some]
    omega

/-- What a step from `pc` does to what there is to take on side `x`. -/
inductive Trades (cfg : Cfg) (s t : St ι) (x : Side) (pc pc' : Pc) : Prop
  | same (queue : t.queue = s.queue)
  /-- The other side made something available and goes on to `fire`. -/
  | give (c : Call) (k : Ret → Cont) (l : Cont) (tries : Tries pc c k) (side : c.side ≠ x)
      (avail : t.avail cfg x ≤ s.avail cfg x + 1) (goes : pc' = .fire x .first l)
  | take (avail : t.avail cfg x + 1 = s.avail cfg x)

theorem apply_queue [DecidableEq ι] {i : ι} {e : Eff} (hpop : e ≠ .pop) (hpush : ∀ m, e ≠ .push m) :
    (s.apply i e).queue = s.queue := by
  cases e with
  | pop => exact absurd rfl hpop
  | push m => exact absurd rfl (hpush m)
  | wakeByRef w =>
    rw [apply_wakeByRef]
  | _ => rfl

theorem Fires.multi {k : Cont} {pc' : Pc} (h : Fires cfg x k pc') (hkind : cfg.kind x = .multi) :
    pc' = .fire x .first k := by
  cases h with
  | dummy kind => rw [hkind] at kind; cases kind
  | fire => rfl

variable [DecidableEq ι] [Fintype ι] {i : ι} {e : Eff} {pc pc' : Pc}

/-- What a step takes from the queue or puts into it. -/
theorem trades_of_pcStep (h : PcStep cfg s i pc e pc') (hpc : pc.Blocking)
    (hkind : ∀ x, cfg.kind x = .multi) (hcap : cfg.cap = some n) (x : Side) :
    Trades cfg s (s.apply i e) x pc pc' := by
  by_cases hpop : e = .pop
  · subst hpop
    cases h with
    | recv _ c k m rest _ tries side queue goes =>
      cases x with
      | rx => exact .take (by simp [St.avail, St.apply, queue])
      | tx =>
        rw [side] at goes
        refine .give c k _ tries (by rw [side]; rintro ⟨⟩) ?_ (goes.multi (hkind .tx))
        simp only [St.avail, St.apply, queue, List.tail_cons, List.length_cons]
        omega
    | selectClaim => cases hpc _ rfl
    | fire _ _ _ _ _ step => cases step
    | close _ _ _ _ step => cases step
  · by_cases hpush : ∃ m, e = .push m
    · obtain ⟨m, rfl⟩ := hpush
      cases h with
      | send _ c k _ _ tries side msg room goes =>
        cases x with
        | tx =>
          have hroom : s.queue.length < n := by simpa [isFull, hcap] using room
          refine .take ?_
          simp only [St.avail, St.apply, hcap, Option.getD_some, List.length_append,
            List.length_singleton]
          omega
        | rx =>
          rw [side] at goes
          refine .give c k _ tries (by rw [side]; rintro ⟨⟩) ?_ (goes.multi (hkind .rx))
          simp [St.avail, St.apply]
      | fire _ _ _ _ _ step => cases step
      | close _ _ _ _ step => cases step
    · exact .same (apply_queue hpop fun m hm => hpush ⟨m, hm⟩)

end Avail

/-! ## Whose duty it is -/

/-- The woken waker an agent is about to register once more. -/
def Pc.renews : Pc → Option Nat
  | .reset _ w | .reg _ (some w) false => some w
  | _ => none

/-- The waker of an agent that tries the queue once it sees that the waker is woken. -/
def Pc.retries : Pc → Option Nat
  | .spin _ o => o
  | pc => pc.awaits

/-- `wake` has not yet found a waiter. -/
def seeks : WakePc → Bool
  | .load | .store | .cas => true
  | .wakeByRef result | .returned result => !result.isDone

section Duty

variable {ι : Type}

/-- Waker `v` of side `x` has the registration in which it stood before `w`. -/
structure Before (s : St ι) (x : Side) (v w : Nat) : Prop where
  lt : (s.waker v).seq < (s.waker w).seq
  old : v < s.nextWaker
  side : (s.waker v).side = x
  renews : ∀ j, (s.pc j).renews ≠ some v

/-- An agent that will wake `w`, hand its duty to a waiter before `w`, or try the queue. -/
inductive Duty (s : St ι) (x : Side) (w : Nat) : Pc → Prop
  | first (k : Cont) : Duty s x w (.fire x .first k)
  | firstLock (flag : Flags) (k : Cont) : Duty s x w (.fire x (.firstLock flag) k)
  | wakeFirst (v : Nat) (p : WakePc) (last : Nat) (k : Cont) (seeks : seeks p = true)
      (le : (s.waker w).seq ≤ last) : Duty s x w (.fire x (.wake v p (.first last)) k)
  | wakeAgain (v : Nat) (p : WakePc) (last : Nat) (k : Cont) (seeks : seeks p = true)
      (le : (s.waker w).seq ≤ last) (before : Before s x v w) :
      Duty s x w (.fire x (.wake v p (.again last)) k)
  | seqCheck (v last : Nat) (k : Cont) (le : (s.waker w).seq ≤ last) (before : Before s x v w) :
      Duty s x w (.fire x (.seqCheck v last) k)
  | again (last : Nat) (k : Cont) (le : (s.waker w).seq ≤ last) :
      Duty s x w (.fire x (.again last) k)
  | againLock (last : Nat) (k : Cont) (le : (s.waker w).seq ≤ last) :
      Duty s x w (.fire x (.againLock last) k)
  | retry (pc : Pc) (v : Nat) (retries : pc.retries = some v) (side : pc.side = some x)
      (woken : (s.waker v).state.isWoken = true) : Duty s x w pc

/-- A waiter that is still in the registry has enough agents before it. -/
def Manned (cfg : Cfg) (s : St ι) : Prop :=
  ∀ i x w, (s.pc i).checked = some w → w ∈ (s.reg x).queue →
    ∃ S : Finset ι, s.avail cfg x ≤ S.card ∧ ∀ a ∈ S, Duty s x w (s.pc a)

end Duty

variable {pc : Pc} {w : Nat}

theorem Pc.renews_of_ready (h : pc.ready = some w) : pc.renews = some w := by
  unfold Pc.ready at h
  split at h
  · exact h
  · cases h

theorem Pc.own_of_retries (h : pc.retries = some w) : pc.own = some w := by
  cases pc with
  | spin c o => exact h
  | _ => exact Pc.own_of_awaits h

theorem Pc.retries_of_awaits (h : pc.awaits = some w) : pc.retries = some w := by
  cases pc with
  | spin c o => cases h
  | _ => exact h

theorem Pc.stores_of_awaits (h : pc.awaits = some w) : pc.stores = none := by
  cases pc <;> first | rfl | cases h

theorem Pc.retries_cases (h : pc.retries = some w) :
    pc.awaits = some w ∨ ∃ c, pc = .spin c (some w) := by
  cases pc with
  | spin c o => cases h; exact .inr ⟨c, rfl⟩
  | _ => exact .inl h

theorem Pc.call_of_retries (h : pc.retries = some w) : ∃ c, pc.call = some c := by
  cases pc <;> first | exact ⟨_, rfl⟩ | cases h

theorem Cont.renews_pc (k : Cont) : k.pc.renews = none := by cases k <;> rfl

section Steps

variable {ι : Type} [DecidableEq ι] [Fintype ι] {cfg : Cfg} {s t : St ι} {i : ι} {choice : Bool}
  {e : Eff} {pc pc' : Pc} {x : Side} {k : Cont} {v w n : Nat}

omit [DecidableEq ι] in
/-- A woken waker is registered once more after a failed try. -/
theorem renews_of_pcStep (h : PcStep cfg s i pc e pc') (hfits : pc.Fits) (hpc : pc.Blocking)
    (hv : pc'.renews = some v) :
    pc.renews = some v ∨ ∃ c, pc = .spin c (some v) ∧ attempt cfg s c = none := by
  have hcont {k : Cont} (hk : k.pc.renews = some v) : False := by
    rw [k.renews_pc] at hk
    cases hk
  cases h with
  | recv _ _ _ _ _ _ _ _ _ goes | send _ _ _ _ _ _ _ _ _ goes | abandonFire _ _ _ _ _ goes =>
    cases goes with
    | dummy => exact (hcont hv).elim
    | fire => cases hv
  | spinReset c u fail => cases hv; exact .inr ⟨c, rfl, fail⟩
  | spinReg c o => cases o <;> cases hv
  | reset c u => cases hv; exact .inl rfl
  | recas c u =>
    have hblocking := hpc c rfl
    rw [hfits.2] at hblocking
    cases hblocking
  | closedSettle _ _ _ _ _ _ goes | snoozeWoken _ _ _ _ goes | state _ _ _ goes =>
    cases goes with
    | sleep _ _ goes => cases goes <;> cases hv
    | _ => cases hv
  | congestNot c u _ goes | snoozeDone c u _ goes => cases goes <;> cases hv
  | reuseWoken | reuse | clearSkip | clearLock | abandonErr => exact (hcont hv).elim
  | fire x f k _ _ step =>
    rcases fireStep_goes step with rfl | ⟨f', rfl⟩
    · exact (hcont hv).elim
    · cases hv
  | close x f _ _ step => cases step <;> cases hv
  | _ => cases hv

/-- A step changes the number of the waker it registers only. -/
theorem Move.seq_eq (hm : Move cfg s (s.pc i) e pc') (hv : v < s.nextWaker)
    (hready : (s.pc i).ready ≠ some v) : ((s.apply i e).waker v).seq = (s.waker v).seq := by
  cases hm.renumbers (i := i) with
  | keep next seq => exact seq v
  | swap next seq => exact seq v (Nat.ne_of_lt hv)
  | register y u kind which side call number seq =>
    refine seq v ?_
    rintro rfl
    rcases which with ⟨hnow, -⟩ | ⟨hnew, -⟩
    · exact hready hnow
    · exact Nat.ne_of_lt hv hnew

/-- Who is before a waiter stays before it. -/
theorem Before.go (hb : Before s x v w) (hm : Move cfg s (s.pc i) e pc')
    (hw : ((s.apply i e).waker w).seq = (s.waker w).seq)
    (hrenews : ∀ u, pc'.renews = some u → (s.waker u).side = x → (s.pc i).renews = some u) :
    Before ((s.apply i e).setPc i pc') x v w where
  lt := by
    have hv := hm.seq_eq hb.old fun hready => hb.renews i (Pc.renews_of_ready hready)
    show ((s.apply i e).waker v).seq < ((s.apply i e).waker w).seq
    rw [hv, hw]
    exact hb.lt
  old := Nat.lt_of_lt_of_le hb.old (nextWaker_le_apply s i e)
  side := (apply_owner_side s i e hb.old).2.trans hb.side
  renews j hj := by
    rw [go_pc] at hj
    split_ifs at hj with hji
    · subst hji
      exact hb.renews j (hrenews v hj hb.side)
    · exact hb.renews j hj

omit [DecidableEq ι] [Fintype ι] in
/-- What a duty depends on. -/
theorem Duty.congr (hd : Duty s x w pc) (hw : (t.waker w).seq = (s.waker w).seq)
    (hbefore : ∀ v, Before s x v w → Before t x v w)
    (hwoken : ∀ v, pc.retries = some v → (s.waker v).state.isWoken = true →
      (t.waker v).state.isWoken = true) : Duty t x w pc := by
  cases hd with
  | first k => exact .first k
  | firstLock flag k => exact .firstLock flag k
  | wakeFirst v p last k seeks le => exact .wakeFirst v p last k seeks (hw ▸ le)
  | wakeAgain v p last k seeks le before =>
    exact .wakeAgain v p last k seeks (hw ▸ le) (hbefore v before)
  | seqCheck v last k le before => exact .seqCheck v last k (hw ▸ le) (hbefore v before)
  | again last k le => exact .again last k (hw ▸ le)
  | againLock last k le => exact .againLock last k (hw ▸ le)
  | retry _ v retries side woken => exact .retry pc v retries side (hwoken v retries woken)

omit [DecidableEq ι] [Fintype ι] in
/-- An agent with a duty that tries the queue does so for side `x`. -/
theorem Duty.side_of_tries {c : Call} {k : Ret → Cont} (hd : Duty s x w pc)
    (htries : Tries pc c k) : c.side = x := by
  cases hd with
  | retry _ v retries side woken =>
    rw [Pc.side, htries.call] at side
    exact Option.some.inj side
  | _ => cases htries

end Steps

/-! ## The invariant -/

section Invariant

variable {ι : Type} [DecidableEq ι] [Fintype ι]

/-- When `fire` stops at waker `v`, no waiter is left behind `v` that was registered when `fire`
popped its first waker. -/
def St.leavesNone (s : St ι) : Pc → Prop
  | .fire x (.seqCheck v last) _ =>
    u32 (last + (2 ^ 32 - 1)) ≤ s.seq v → ∀ u ∈ (s.reg x).queue, s.alive u = true →
      (s.waker u).state.isWoken = false → (s.waker v).seq < (s.waker u).seq →
        last < (s.waker u).seq
  | _ => True

/-- What holds in a run of blocking calls without a deadline. -/
structure Orderly (cfg : Cfg) (s : St ι) : Prop where
  held : Held s
  placed : Placed cfg s
  numbered : Numbered cfg s
  roused : Roused cfg s
  plain : Plain s

variable {cfg : Cfg} {s t : St ι} {i : ι} {choice : Bool} {e : Eff} {pc' : Pc} {x : Side}
  {k : Cont} {v w n : Nat}

omit [DecidableEq ι] in
/-- A waker that stands in the queue before `w`. -/
theorem Orderly.before (ho : Orderly cfg s) {dead rest : List Nat}
    (hqueue : (s.reg x).queue = dead ++ v :: rest) (hw : w ∈ rest) : Before s x v w := by
  have hv : v ∈ (s.reg x).queue := by
    rw [hqueue]
    exact List.mem_append_right _ List.mem_cons_self
  have hlisted : s.placed v := .inl ⟨x, .inl hv⟩
  obtain ⟨hold, hside⟩ := ho.held.listed x v (.inl hv)
  refine ⟨?_, hold, hside, fun j hj => ?_⟩
  · have horder := ho.numbered.order x
    rw [hqueue, List.pairwise_append, List.pairwise_cons] at horder
    exact horder.2.1.1 w hw
  · have hknows := ho.placed.knows j v
    have hown := ho.placed.own j v
    have hready := ho.placed.ready j v
    generalize s.pc j = pc at hj hknows hown hready
    unfold Pc.renews at hj
    split at hj
    · cases hj
      have hwoken := hknows rfl
      rw [(hown rfl).mpr hlisted] at hwoken
      cases hwoken
    · cases hj
      exact (hready rfl).2 hlisted
    · cases hj

omit [DecidableEq ι] in
/-- `wake` goes on, returns without having found a waiter, or has found one. -/
theorem seeks_of_fireStep {p : WakePc} {rest : Rest}
    (step : FireStep cfg s x k (.wake v p rest) e pc') (hseeks : seeks p = true) :
    (∃ p', pc' = .fire x (.wake v p' rest) k ∧ seeks p' = true) ∨
      (∃ result, result.isDone = false ∧ Wakes x v k rest result pc') ∨
        p = .store ∧ e = .setState v .woken := by
  cases step with
  | skip _ _ _ _ hpc woken goes => exact .inr (.inl ⟨.skip, rfl, goes⟩)
  | toStore | toCas | cas => exact .inl ⟨_, rfl, rfl⟩
  | store => exact .inr (.inr ⟨rfl, rfl⟩)
  | wakeByRef _ result _ _ goes =>
    have hnot : result.isDone = false := by simpa [seeks] using hseeks
    exact .inr (.inl ⟨result, hnot, goes⟩)

/-- A step of `fire` with a duty keeps it, unless `wake` found a waiter. -/
theorem Duty.fireStep {f : FirePc} (hd : Duty s x w (.fire x f k)) (ho : Orderly cfg s)
    (hkind : cfg.kind x = .multi) (step : FireStep cfg s x k f e pc')
    (hplain : (Pc.fire x f k).Plain) (hstop : s.leavesNone (.fire x f k))
    (halive : s.alive w = true) (hstate : (s.waker w).state.isWoken = false)
    (hw : w ∈ (s.reg x).queue) (hw' : w ∈ ((s.apply i e).reg x).queue)
    (hseq : (t.waker w).seq = (s.waker w).seq)
    (hbefore : ∀ v, Before s x v w → Before t x v w) :
    Duty t x w pc' ∨ ∃ v, (Pc.fire x f k).pops = some (x, v) ∧ (Pc.fire x f k).stores = some v ∧
      e = .setState v .woken := by
  have hnonempty : (s.reg x).state ≠ .empty := by
    intro hempty
    rw [(ho.plain.tidy x).mirrors.queue_eq_nil hempty] at hw
    cases hw
  cases hd with
  | first k =>
    cases step with
    | none kind empty => exact absurd empty hnonempty
    | first kind nonempty => exact .inl (.firstLock _ k)
    | cellNone kind | cellSome kind => exact absurd hkind kind
  | firstLock flag k =>
    cases step with
    | popNone _ r unlocked pop =>
      -- `w` is alive, so the pop finds a waker
      have hdead := (RegistryMulti.popFirst_none pop).2.2 hplain w hw
      rw [halive] at hdead
      cases hdead
    | popLast _ v r unlocked pop =>
      rcases (RegistryMulti.popFirst_some pop).2.2 with ⟨-, hnil⟩ | hsome
      · rw [registry_queue, if_pos rfl, hnil] at hw'
        cases hw'
      · cases hsome
    | popFirst _ v last r unlocked pop =>
      rcases (RegistryMulti.popFirst_some pop).2.2 with ⟨hnone, -⟩ | hsome
      · cases hnone
      · cases hsome
        refine .inl (.wakeFirst v _ _ k rfl ?_)
        obtain ⟨hold, hside⟩ := ho.held.listed x w (.inl hw)
        have hle := ho.numbered.le w hold
        rw [hside] at hle
        rw [hseq]
        exact hle
  | wakeFirst v p last k hseeks le =>
    rw [← hseq] at le
    rcases seeks_of_fireStep step hseeks with ⟨p', rfl, hp'⟩ | ⟨result, hnot, goes⟩ | ⟨rfl, he⟩
    · exact .inl (.wakeFirst v p' last k hp' le)
    · cases goes with
      | leave _ _ done => simp [hnot] at done
      | again => exact .inl (.again last k le)
    · exact .inr ⟨v, rfl, rfl, he⟩
  | wakeAgain v p last k hseeks le before =>
    rw [← hseq] at le
    rcases seeks_of_fireStep step hseeks with ⟨p', rfl, hp'⟩ | ⟨result, hnot, goes⟩ | ⟨rfl, he⟩
    · exact .inl (.wakeAgain v p' last k hp' le (hbefore v before))
    · cases goes with
      | leave _ _ done => simp [hnot] at done
      | seqCheck => exact .inl (.seqCheck v last k le (hbefore v before))
    · exact .inr ⟨v, rfl, rfl, he⟩
  | seqCheck v last k le before =>
    cases step with
    | stop _ _ reached =>
      -- stopping at `v` would leave `w` behind, though `fire` owed it a wakeup
      have hlast := hstop reached w hw halive hstate before.lt
      omega
    | goOn => exact .inl (.again last k (hseq ▸ le))
  | again last k le =>
    cases step with
    | againNone _ empty => exact absurd empty hnonempty
    | again => exact .inl (.againLock last k (hseq ▸ le))
  | againLock last k le =>
    cases step with
    | popAgainNone _ r unlocked pop =>
      have hdead := (RegistryMulti.popAgain_none pop).2.1 w hw
      rw [halive] at hdead
      cases hdead
    | popAgain _ v r unlocked pop =>
      obtain ⟨⟨dead, hqueue, -⟩, -⟩ := RegistryMulti.popAgain_some pop
      rw [registry_queue, if_pos rfl] at hw'
      exact .inl (.wakeAgain v _ last k rfl (hseq ▸ le) (hbefore v (ho.before hqueue hw')))
  | retry _ v retries => cases retries

/-- A woken agent tries the queue. -/
theorem Duty.go_retry (ho : Orderly cfg s) (hkind : ∀ x, cfg.kind x = .multi)
    (hcap : cfg.cap = some n) (h : stepPc cfg s i choice (s.pc i) = some (e, pc'))
    (hretries : (s.pc i).retries = some v) (hside : (s.pc i).side = some x)
    (hwoken : (s.waker v).state.isWoken = true) (hqueue : (s.apply i e).queue = s.queue)
    (havail : s.avail cfg x ≠ 0) : Duty ((s.apply i e).setPc i pc') x w pc' := by
  have hm : Move cfg s (s.pc i) e pc' := move_of_pcStep (pcStep_of_stepPc h) (ho.held.fits i)
  have hstays (hretries' : pc'.retries = some v) : Duty ((s.apply i e).setPc i pc') x w pc' := by
    refine .retry pc' v hretries' ?_ ?_
    · rcases hm.side with hnone | hsame
      · obtain ⟨c, hc⟩ := Pc.call_of_retries hretries'
        rw [Pc.side, hc] at hnone
        cases hnone
      · exact hsame.trans hside
    · exact hm.woken ho.held (Pc.own_of_retries hretries)
        (fun _ => Pc.own_of_retries hretries') hwoken
  rcases Pc.retries_cases hretries with hawaits | ⟨c, hpc⟩
  · rcases ho.plain.awaits_go ho.placed hkind h hawaits with hawaits' | ⟨-, c, rfl⟩
    · exact hstays (Pc.retries_of_awaits hawaits')
    · exact hstays rfl
  · rw [hpc] at h hside
    cases hside
    simp only [stepPc] at h
    cases hok : attempt cfg s c with
    | none => exact absurd (avail_eq_zero hcap (not_available_of_attempt hok)) havail
    | some p =>
      obtain ⟨e', r⟩ := p
      rw [hok] at h
      cases h
      rcases attempt_some hok with ⟨m, rest, -, hq, rfl, -⟩ | ⟨m, -, -, -, rfl, -⟩
      · simp [St.apply, hq] at hqueue
      · simp [St.apply] at hqueue

/-- A duty is done or stays. -/
theorem Duty.go (hd : Duty s x w (s.pc i)) (ho : Orderly cfg s)
    (hkind : ∀ x, cfg.kind x = .multi) (hcap : cfg.cap = some n) (hstop : s.leavesNone (s.pc i))
    (h : stepPc cfg s i choice (s.pc i) = some (e, pc')) (halive : s.alive w = true)
    (hstate : (s.waker w).state.isWoken = false) (hw : w ∈ (s.reg x).queue)
    (hw' : w ∈ ((s.apply i e).reg x).queue) (hqueue : (s.apply i e).queue = s.queue)
    (havail : s.avail cfg x ≠ 0)
    (hseq : ((s.apply i e).waker w).seq = (s.waker w).seq)
    (hbefore : ∀ v, Before s x v w → Before ((s.apply i e).setPc i pc') x v w) :
    Duty ((s.apply i e).setPc i pc') x w pc' ∨ ∃ v, (s.pc i).pops = some (x, v) ∧
      (s.pc i).stores = some v ∧ e = .setState v .woken := by
  have hplain := ho.plain.pcs i
  have hstep := pcStep_of_stepPc h
  have hfire {f : FirePc} {k : Cont} (hpc : s.pc i = .fire x f k) :
      Duty ((s.apply i e).setPc i pc') x w pc' ∨ ∃ v, (s.pc i).pops = some (x, v) ∧
        (s.pc i).stores = some v ∧ e = .setState v .woken := by
    rw [hpc] at hd hplain hstop hstep ⊢
    exact hd.fireStep ho (hkind x) (fireStep_of_pcStep hstep) hplain hstop halive hstate hw hw' hseq
      hbefore
  generalize hpc : s.pc i = pc at hd hfire
  cases hd with
  | retry _ v retries side woken =>
    subst hpc
    exact .inl (Duty.go_retry ho hkind hcap h retries side woken hqueue havail)
  | _ => exact hfire rfl

omit [DecidableEq ι] in
/-- The waiter that `wake` has found is on the side of the registry, and it had no duty yet. -/
theorem Orderly.found (ho : Orderly cfg s) (hpops : (s.pc i).pops = some (x, v))
    (hstores : (s.pc i).stores = some v) :
    ∃ b, b ≠ i ∧ (s.pc b).retries = some v ∧ (s.pc b).side = some x ∧
      ∀ w, ¬ Duty s x w (s.pc b) := by
  have hwaiting := ho.plain.stores i v hstores
  obtain ⟨b, hb⟩ := ho.plain.waiting v hwaiting
  have hretries := Pc.retries_of_awaits hb
  refine ⟨b, ?_, hretries, ?_, fun w hd => ?_⟩
  · rintro rfl
    rw [Pc.stores_of_awaits hb] at hstores
    cases hstores
  · obtain ⟨c, hc⟩ := Pc.call_of_retries hretries
    have hside : (s.pc b).side = some c.side := by rw [Pc.side, hc]; rfl
    rw [hside, ← ho.held.side_of_mine (Pc.own_mem_mine (Pc.own_of_awaits hb)) hside,
      (ho.held.pops i x v hpops).2]
  · generalize s.pc b = pc at hb hretries hd
    cases hd with
    | retry _ u retries side woken =>
      cases hretries.symm.trans retries
      rw [hwaiting] at woken
      cases woken
    | _ => cases hb

/-- A waiter in the registry had failed its double check before the step, or there is nothing to
take. -/
theorem Orderly.checked_go (ho : Orderly cfg s) (hcap : cfg.cap = some n)
    (hstep : PcStep cfg s i (s.pc i) e pc') {j : ι}
    (hj : (((s.apply i e).setPc i pc').pc j).checked = some w)
    (hw : w ∈ ((s.apply i e).reg x).queue) (hzero : (s.apply i e).avail cfg x ≠ 0) :
    (s.pc j).checked = some w := by
  by_cases hji : j = i
  · subst hji
    rw [setPc_pc_self] at hj
    rcases checked_of_pcStep hstep (ho.held.fits j) (ho.plain.blocking j) hj with
      hold | ⟨rfl, c, hpc, hfail⟩
    · exact hold
    · have hside : (s.waker w).side = c.side :=
        ho.held.side_of_mine (i := j) (by rw [hpc]; exact List.mem_singleton_self w)
          (by rw [hpc]; rfl)
      have hx : c.side = x := hside.symm.trans (ho.held.listed x w (.inl hw)).2
      subst hx
      exact absurd (avail_eq_zero hcap (not_available_of_attempt hfail)) hzero
  · rwa [setPc_pc_of_ne hji, apply_pc] at hj

/-- **A step of a call leaves enough hands.** -/
theorem Manned.go (hman : Manned cfg s) (ho : Orderly cfg s) (hkind : ∀ x, cfg.kind x = .multi)
    (hcap : cfg.cap = some n) (hstop : s.leavesNone (s.pc i))
    (h : stepPc cfg s i choice (s.pc i) = some (e, pc')) :
    Manned cfg ((s.apply i e).setPc i pc') := by
  intro j x w hj hw
  by_cases hzero : (s.apply i e).avail cfg x = 0
  · exact ⟨∅, Nat.le_of_eq hzero, nofun⟩
  have hstep := pcStep_of_stepPc h
  have hm : Move cfg s (s.pc i) e pc' := move_of_pcStep hstep (ho.held.fits i)
  have hchecked := ho.checked_go hcap hstep hj hw hzero
  have hown := Pc.own_of_checked hchecked
  have hold : w ∈ (s.reg x).queue := by
    rcases hm.listed_of_own ho.held hown (.inl hw) with hqueue | hcell
    · exact hqueue
    · rw [ho.placed.cell x (hkind x)] at hcell
      cases hcell
  have hseq : ((s.apply i e).waker w).seq = (s.waker w).seq := by
    refine hm.seq_eq (ho.held.mine j w (Pc.own_mem_mine hown)).1 fun hready => ?_
    obtain rfl := ho.held.owner_unique (Pc.own_mem_mine hown) (Pc.ready_mem_mine hready)
    rw [Pc.ready_of_own hown] at hready
    cases hready
  obtain ⟨S, hcard, hS⟩ := hman j x w hchecked hold
  -- a waker is registered again when there is nothing to take
  have hrenews (havail : s.avail cfg x ≠ 0) (u : Nat) (hu : pc'.renews = some u)
      (hside : (s.waker u).side = x) : (s.pc i).renews = some u := by
    rcases renews_of_pcStep hstep (ho.held.fits i) (ho.plain.blocking i) hu with
      hsame | ⟨c, hpc, hfail⟩
    · exact hsame
    · have hc : (s.waker u).side = c.side :=
        ho.held.side_of_mine (i := i) (by rw [hpc]; exact List.mem_singleton_self u)
          (by rw [hpc]; rfl)
      rw [← hside, hc] at havail
      exact absurd (avail_eq_zero hcap (not_available_of_attempt hfail)) havail
  have hframe (hren : ∀ u, pc'.renews = some u → (s.waker u).side = x →
      (s.pc i).renews = some u) {a : ι} (ha : a ∈ S) (hai : a ≠ i) :
      Duty ((s.apply i e).setPc i pc') x w (((s.apply i e).setPc i pc').pc a) := by
    rw [setPc_pc_of_ne hai, apply_pc]
    exact (hS a ha).congr hseq (fun v hb => hb.go hm hseq hren) fun v hv hwoken =>
      hm.woken ho.held (Pc.own_of_retries hv) (fun heq => absurd heq hai) hwoken
  cases trades_of_pcStep hstep (ho.plain.blocking i) hkind hcap x with
  | give c l k tries side avail goes =>
    have hi : i ∉ S := fun hi => side ((hS i hi).side_of_tries tries)
    refine ⟨insert i S, ?_, fun a ha => ?_⟩
    · rw [Finset.card_insert_of_notMem hi]
      exact avail.trans (Nat.succ_le_succ hcard)
    · subst goes
      rcases Finset.mem_insert.mp ha with rfl | ha
      · rw [setPc_pc_self]
        exact .first k
      · exact hframe nofun ha fun hai => hi (hai ▸ ha)
  | take avail =>
    refine ⟨S.erase i, ?_, fun a ha => ?_⟩
    · have hless := Finset.pred_card_le_card_erase (s := S) (a := i)
      show (s.apply i e).avail cfg x ≤ _
      omega
    · exact hframe (hrenews (by omega)) (Finset.mem_of_mem_erase ha) (Finset.ne_of_mem_erase ha)
  | same queue =>
    have hsame : (s.apply i e).avail cfg x = s.avail cfg x := avail_congr queue x
    have hren := hrenews (hsame ▸ hzero)
    by_cases hi : i ∈ S
    · have hstate : (s.waker w).state.isWoken = false :=
        (ho.placed.own j w hown).mpr (.inl ⟨x, .inl hold⟩)
      rcases (hS i hi).go ho hkind hcap hstop h (St.alive_of_own hown) hstate hold hw queue
        (hsame ▸ hzero) hseq (fun v hb => hb.go hm hseq hren) with
        hduty | ⟨v, hpops, hstores, rfl⟩
      · refine ⟨S, hsame.trans_le hcard, fun a ha => ?_⟩
        by_cases hai : a = i
        · subst hai
          rwa [setPc_pc_self]
        · exact hframe hren ha hai
      · -- the duty goes to the waiter that was found
        obtain ⟨b, hbi, hretries, hside, hno⟩ := ho.found hpops hstores
        have hb : b ∉ S.erase i := fun hb => hno w (hS b (Finset.mem_of_mem_erase hb))
        refine ⟨insert b (S.erase i), ?_, fun a ha => ?_⟩
        · rw [Finset.card_insert_of_notMem hb, Finset.card_erase_add_one hi]
          exact hsame.trans_le hcard
        · rcases Finset.mem_insert.mp ha with rfl | ha
          · rw [setPc_pc_of_ne hbi, apply_pc]
            refine .retry _ v hretries hside ?_
            rw [setPc_waker, setState_state, if_pos rfl]
            rfl
          · exact hframe hren (Finset.mem_of_mem_erase ha) (Finset.ne_of_mem_erase ha)
    · exact ⟨S, hsame.trans_le hcard, fun a ha => hframe hren ha fun hai => hi (hai ▸ ha)⟩

omit [Fintype ι] in
/-- The start of a call. -/
theorem Manned.call {c : Call} (hman : Manned cfg s) (hidle : s.pc i = .idle) :
    Manned cfg ((s.countMsg c).setPc i (startPc c)) := by
  have hpc : (s.countMsg c).pc = s.pc := by unfold St.countMsg; split_ifs <;> rfl
  have hwaker : (s.countMsg c).waker = s.waker := by unfold St.countMsg; split_ifs <;> rfl
  have hnext : (s.countMsg c).nextWaker = s.nextWaker := by
    unfold St.countMsg; split_ifs <;> rfl
  have hreg : (s.countMsg c).reg = s.reg := by unfold St.countMsg; split_ifs <;> rfl
  have hqueue : (s.countMsg c).queue = s.queue := by unfold St.countMsg; split_ifs <;> rfl
  have hstart : (startPc c).renews = none := by
    fun_cases startPc c <;> rfl
  intro j x w hj hw
  have hji : j ≠ i := by
    rintro rfl
    rw [setPc_pc_self, startPc_checked] at hj
    cases hj
  rw [setPc_pc_of_ne hji, hpc] at hj
  rw [setPc_reg, hreg] at hw
  obtain ⟨S, hcard, hS⟩ := hman j x w hj hw
  refine ⟨S, (avail_congr hqueue x).trans_le hcard, fun a ha => ?_⟩
  -- an idle agent has no duty
  have hai : a ≠ i := by
    rintro rfl
    have hd := hS a ha
    rw [hidle] at hd
    cases hd with
    | retry _ v retries => cases retries
  rw [setPc_pc_of_ne hai, hpc]
  refine (hS a ha).congr ?_ (fun v hb => ⟨?_, ?_, ?_, fun b hrenews => ?_⟩) fun v _ hwoken => ?_
  · rw [setPc_waker, hwaker]
  · rw [setPc_waker, hwaker]
    exact hb.lt
  · rw [setPc_nextWaker, hnext]
    exact hb.old
  · rw [setPc_waker, hwaker]
    exact hb.side
  · by_cases hbi : b = i
    · subst hbi
      rw [setPc_pc_self, hstart] at hrenews
      cases hrenews
    · rw [setPc_pc_of_ne hbi, hpc] at hrenews
      exact hb.renews b hrenews
  · rw [setPc_waker, hwaker]
    exact hwoken

omit [Fintype ι] in
/-- A handle is cloned. -/
theorem Manned.addHandle (hman : Manned cfg s) (x : Side) (j : ι) :
    Manned cfg (s.addHandle x j) := by
  intro i y w hi hw
  obtain ⟨S, hcard, hS⟩ := hman i y w hi hw
  refine ⟨S, (avail_congr rfl y).trans_le hcard, fun a ha => ?_⟩
  exact (hS a ha).congr rfl (fun v hb => ⟨hb.lt, hb.old, hb.side, hb.renews⟩) fun _ _ h => h

/-- The runs of `send` and `recv` without a deadline in which no handle is dropped. -/
def plainRun (_ : St ι) : Act ι → Prop
  | .call _ c => c.isPlain = true
  | .go _ _ | .clone _ _ => True
  | .poll _ _ | .dropFuture _ | .dropHandle _ | .readSelect _ | .dropToken _ | .regSelect _ _
  | .cancelSelect _ => False

/-- `fire` leaves no waiter behind that it has to reach. -/
def stopOk (s : St ι) : Act ι → Prop
  | .go i _ => s.leavesNone (s.pc i)
  | .call _ _ | .poll _ _ | .dropFuture _ | .dropHandle _ | .clone _ _ | .readSelect _
  | .dropToken _ | .regSelect _ _ | .cancelSelect _ => True

/-- A plain run in which `clear_wakers` and `fire` pass over no waiter. -/
def plainOk (s : St ι) (a : Act ι) : Prop := plainRun s a ∧ clearOk s a ∧ stopOk s a

instance (s : St ι) : (a : Act ι) → Decidable (plainRun s a)
  | .call _ c => inferInstanceAs (Decidable (c.isPlain = true))
  | .go _ _ | .clone _ _ => instDecidableTrue
  | .poll _ _ | .dropFuture _ | .dropHandle _ | .readSelect _ | .dropToken _ | .regSelect _ _
  | .cancelSelect _ => instDecidableFalse

instance (s : St ι) (pc : Pc) : Decidable (s.leavesNone pc) := by
  unfold St.leavesNone
  split <;> infer_instance

instance (s : St ι) : (a : Act ι) → Decidable (stopOk s a)
  | .go i _ => inferInstanceAs (Decidable (s.leavesNone (s.pc i)))
  | .call _ _ | .poll _ _ | .dropFuture _ | .dropHandle _ | .clone _ _ | .readSelect _
  | .dropToken _ | .regSelect _ _ | .cancelSelect _ => instDecidableTrue

instance (s : St ι) (a : Act ι) : Decidable (plainOk s a) :=
  inferInstanceAs (Decidable (plainRun s a ∧ clearOk s a ∧ stopOk s a))

/-- **Every action without a deadline.** -/
theorem Orderly.step {a : Act ι} (ho : Orderly cfg s) (hman : Manned cfg s)
    (hkind : ∀ x, cfg.kind x = .multi) (hcap : cfg.cap = some n) (hok : plainOk s a)
    (hstep : Channel.step cfg s a = some t) : Orderly cfg t ∧ Manned cfg t := by
  obtain ⟨hrun, hclear, hstop⟩ := hok
  have hnext (hplain : Plain t) : Orderly cfg t :=
    ⟨ho.held.step hstep, ho.placed.step ho.held hclear hstep,
      ho.numbered.step ho.held ho.placed hstep, ho.roused.step ho.placed ho.held hstep, hplain⟩
  cases a with
  | go i choice =>
    obtain ⟨e, pc', hpc, rfl⟩ := step_go hstep
    exact ⟨hnext (ho.plain.go ho.held ho.placed hkind hpc),
      hman.go ho hkind hcap hstop hpc⟩
  | call i c =>
    rcases step_cases hstep with ⟨_, _, _, _, hact, _⟩ | hcall
    · cases hact
    · cases hcall with
      | call _ _ pc => exact ⟨hnext (ho.plain.call pc hrun), hman.call pc⟩
  | clone i j =>
    rcases step_cases hstep with ⟨_, _, _, _, hact, _⟩ | hcall
    · cases hact
    · cases hcall with
      | clone _ _ x => exact ⟨hnext (ho.plain.addHandle x j), hman.addHandle x j⟩
  | _ => exact hrun.elim

/-- **Both hold on every run.** -/
theorem orderly_of_reach (hkind : ∀ x, cfg.kind x = .multi) (hcap : cfg.cap = some n)
    (h : Reach (system cfg) plainOk s) : Orderly cfg s ∧ Manned cfg s := by
  refine h.invariant (P := fun s => Orderly cfg s ∧ Manned cfg s) ?_
    fun _ _ _ hs hok hstep => hs.1.step hs.2 hkind hcap hok hstep
  rintro _ ⟨a, b, hab, rfl⟩
  exact ⟨⟨held_new hab, placed_new a b, numbered_new a b, roused_new a b, plain_new a b⟩, nofun⟩

/-! ## No stranded waiter -/

omit [DecidableEq ι] in
/-- When every agent rests, none has a duty. -/
theorem Orderly.not_duty (ho : Orderly cfg s) (hrest : ∀ j, s.Rests j) (i : ι) :
    ¬ Duty s x w (s.pc i) := by
  intro hd
  have hroused := ho.roused.rung i
  have hfits := ho.held.fits i
  rcases hrest i with hpc | ⟨c, v, hpc, htoken⟩
  · rw [hpc] at hd
    cases hd with
    | retry _ v retries => cases retries
  · rw [hpc] at hd hroused hfits
    cases hd with
    | retry _ u retries side woken =>
      cases retries
      rcases hroused v (if_pos hfits) woken with htrue | ⟨j, hj⟩
      · rw [htoken] at htrue
        cases htrue
      · rw [(hrest j).quiet.2.1] at hj
        cases hj

omit [DecidableEq ι] in
/-- At rest nothing is there for a parked agent. -/
theorem Orderly.not_available (ho : Orderly cfg s) (hman : Manned cfg s)
    (hkind : ∀ x, cfg.kind x = .multi) (hcap : cfg.cap = some n) (hrest : ∀ j, s.Rests j)
    {c : Call} (hpark : s.pc i = .park c w) : ¬ s.available cfg c.side := by
  intro havailable
  have hown : (s.pc i).own = some w := by rw [hpark]; rfl
  have hside : (s.pc i).side = some c.side := by rw [hpark]; rfl
  have hwaits : (s.waker w).state.isWoken = false := by
    by_contra hwoken
    refine ho.not_duty hrest i (x := c.side) (w := w) (.retry _ w ?_ hside ?_)
    · rw [hpark]; rfl
    · exact Bool.not_eq_false _ |>.mp hwoken
  rcases (ho.placed.own i w hown).mp hwaits with ⟨y, hlisted⟩ | ⟨j, y, hpops⟩
  · have hy : y = c.side :=
      (ho.held.listed y w hlisted).2.symm.trans (ho.held.side_of_mine (Pc.own_mem_mine hown) hside)
    subst hy
    rcases hlisted with hqueue | hcell
    · obtain ⟨S, hcard, hS⟩ := hman i c.side w (by rw [hpark]; rfl) hqueue
      have hempty : S = ∅ := Finset.eq_empty_of_forall_notMem fun a ha =>
        ho.not_duty hrest a (hS a ha)
      rw [hempty] at hcard
      exact avail_ne_zero hcap havailable (Nat.le_zero.mp hcard)
    · rw [ho.placed.cell _ (hkind _)] at hcell
      cases hcell
  · rw [(hrest j).quiet.1] at hpops
    cases hpops

/-- On a channel with any number of producers and consumers that make blocking calls without a
deadline, in the runs in which `fire` leaves no waiter behind: whenever every agent is between two
calls or parked without a pending `unpark`, the queue is empty if a receiver is parked and full if a
sender is parked. -/
theorem multi_no_stranded (hkind : ∀ x, cfg.kind x = .multi) (hcap : cfg.cap = some n)
    (h : Reach (system cfg) plainOk s) (hrest : ∀ j, s.Rests j) :
    (∀ i c w, s.pc i = .park c w → c.side = .rx → s.queue = []) ∧
      ∀ i c w, s.pc i = .park c w → c.side = .tx → n ≤ s.queue.length := by
  obtain ⟨ho, hman⟩ := orderly_of_reach hkind hcap h
  refine ⟨fun i c w hpark hside => ?_, fun i c w hpark hside => ?_⟩
  · have hnot := ho.not_available hman hkind hcap hrest hpark
    rw [hside] at hnot
    exact not_not.mp hnot
  · have hnot := ho.not_available hman hkind hcap hrest hpark
    simpa [hside, St.available, isFull, hcap] using hnot

end Invariant

/-- An MPMC channel of capacity 2. -/
def mpmcCfg : Cfg := ⟨some 2, fun _ => .multi, (· == ·), true⟩

/-- Two receivers wait and one message is sent: the first one takes it and the second one stays
parked on an empty queue. -/
theorem multi_no_stranded_two : ∃ s : St (Fin 3), Reach (system mpmcCfg) plainOk s ∧
    (s.pc 2 = .park (.recv false) 1 ∧ s.taken = [0]) ∧ s.queue = [] := by
  have hnew : Reach (system mpmcCfg) plainOk (St.new (0 : Fin 3) 1) := .init ⟨0, 1, nofun, rfl⟩
  obtain ⟨s, hs, hidle, htoken, hpark, htaken⟩ := hnew.exists_of_run
    [.clone 1 2, .call 1 (.recv false), .go 1 false, .go 1 true, .go 1 false, .go 1 false,
      .go 1 false, .go 1 false, .call 2 (.recv false), .go 2 false, .go 2 true, .go 2 false,
      .go 2 false, .go 2 false, .go 2 false, .call 0 (.send 0 false), .go 0 false, .go 0 false,
      .go 0 false, .go 0 false, .go 0 false, .go 0 false, .go 0 false, .go 0 false,
      .go 1 false, .go 1 false, .go 1 false, .go 1 false, .go 1 false]
    (fun s => (∀ j : Fin 3, s.pc j = .idle ∨ j = 2) ∧ s.token 2 = false ∧
      s.pc 2 = .park (.recv false) 1 ∧ s.taken = [0]) (by decide +kernel)
  have hrest (j : Fin 3) : s.Rests j := by
    rcases hidle j with hpc | rfl
    · exact .inl hpc
    · exact .inr ⟨_, _, hpark, htoken⟩
  have hempty := (multi_no_stranded (fun _ => rfl) rfl hs hrest).1
  exact ⟨s, hs, ⟨hpark, htaken⟩, hempty 2 _ _ hpark rfl⟩

/-- Receivers 1 and 2 have taken messages by their double checks and are about to cancel their
wakers, with numbers 1 and 2; receiver 3 waits with number 3. The sender of the next message wakes
the first two wakers and stops, because number 2 is not below `3 - 1`. Receiver 3 stays parked, and
the message stays in the queue. -/
theorem receiver_stranded : ∃ s : St (Fin 4), Reach (system mpmcCfg) plainRun s ∧
    (∀ j, s.Rests j) ∧ s.pc 3 = .park (.recv false) 2 ∧ s.queue = [2] := by
  have hnew : Reach (system mpmcCfg) plainRun (St.new (0 : Fin 4) 1) := .init ⟨0, 1, nofun, rfl⟩
  obtain ⟨s, hs, hidle, htoken, hpark, hqueue⟩ := hnew.exists_of_run
    [.clone 1 2, .clone 1 3,
      -- receivers 1 and 2 find the queue empty
      .call 1 (.recv false), .go 1 false, .go 1 true,
      .call 2 (.recv false), .go 2 false, .go 2 true,
      -- two messages are sent before they register
      .call 0 (.send 0 false), .go 0 false, .go 0 false, .go 0 false, .go 0 false,
      .call 0 (.send 1 false), .go 0 false, .go 0 false, .go 0 false, .go 0 false,
      .go 1 false, .go 1 false, .go 2 false, .go 2 false,
      -- receiver 3 parks
      .call 3 (.recv false), .go 3 false, .go 3 true, .go 3 false, .go 3 false, .go 3 false,
      .go 3 false,
      -- the sender stops at the waker of receiver 2
      .call 0 (.send 2 false), .go 0 false, .go 0 false, .go 0 false, .go 0 false, .go 0 false,
      .go 0 false, .go 0 false, .go 0 false, .go 0 false, .go 0 false, .go 0 false, .go 0 false,
      .go 0 false, .go 0 false,
      -- receivers 1 and 2 return
      .go 1 false, .go 1 false, .go 1 false, .go 2 false, .go 2 false, .go 2 false]
    (fun s => (∀ j : Fin 4, s.pc j = .idle ∨ j = 3) ∧ s.token 3 = false ∧
      s.pc 3 = .park (.recv false) 2 ∧ s.queue = [2]) (by decide +kernel)
  refine ⟨s, hs, fun j => ?_, hpark, hqueue⟩
  rcases hidle j with hpc | rfl
  · exact .inl hpc
  · exact .inr ⟨_, _, hpark, htoken⟩

end Crossfire.Channel
