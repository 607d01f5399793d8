import Crossfire.ArrayQueue.MpmcInvariant

/-!
# What the push calls of `ArrayQueue` answer

A push call answers `false` when the head it loads is one lap behind the tail it has loaded before,
and a pop answers `None` when the tail it loads is the head. If the position that was read first has
moved by less than a full wrap, less one lap, in between, the queue is full or empty at that instant
(`Calls`). `arrayQueue_isFifo` is the refinement of a bounded queue under `wrapOk`. Without it
positions come around: `arrayQueue_refused_late` is a run in which a one-shot push is stopped
between its two loads, and an empty queue is reported full.
-/

set_option autoImplicit false

namespace Crossfire.ArrayQueue.Mpmc

open Lib.Interleaving Lib.Lap Lib.Fifo Lib.Cells Lib.Slots Function

section Calls

variable {r : Ring} {ι V : Type} {s t : St ι V} {lap : Nat}

/-- The history of the calls. -/
structure Calls (r : Ring) (lap : Nat) (s : St ι V) : Prop where
  seeks : ∀ i, (s.pc i).seeks → s.claims i = 0
  writes : ∀ i k, (s.pc i).writes = some k → s.claims i = 1
  peak : ∀ i, s.unclaimed ≤ s.peak i ∧ s.peak i ≤ r.cap
  answers : ∀ a ∈ s.answers, a.Sound r.cap lap
  missed : r.cap ≤ lap → ∀ n ∈ s.missed, n = 0

theorem calls_new : Calls r lap (St.new : St ι V) :=
  ⟨nofun, nofun, fun _ => ⟨Nat.le_refl _, Nat.zero_le _⟩, nofun, fun _ => nofun⟩

/-- **A head one lap behind the tail is really there**, and then the queue is full. -/
theorem Inv.full_of_refuse {k : Nat} (h : Inv r s) (hk : k ≤ s.pushed.length)
    (hwrap : s.pushed.length + r.cap < k + r.period) (hfull : r.addLap s.head = r.enc k) :
    s.unclaimed = r.cap := by
  have hle := h.cells.le
  have hroom := h.cells.room
  rw [h.head, Ring.addLap_enc] at hfull
  have heq : k = s.claimed + r.cap := Ring.enc_inj hfull.symm (by omega) (by omega)
  rw [St.unclaimed]
  omega

/-- A tail that is the head read before is really there, and then the queue is empty. -/
theorem Inv.empty_of_miss {k : Nat} (h : Inv r s) (hk : k ≤ s.claimed)
    (hwrap : s.claimed + r.cap < k + r.period) (htail : s.tail = r.enc k) : s.unclaimed = 0 := by
  have hle := h.cells.le
  have hroom := h.cells.room
  rw [h.tail] at htail
  have heq : k = s.pushed.length := Ring.enc_inj htail.symm (by omega) (by omega)
  rw [St.unclaimed]
  omega

variable [DecidableEq ι]

/-- A call moves on without a claim. -/
theorem Calls.setPc {i : ι} {pc : Pc V} (h : Calls r lap s) (hseeks : pc.seeks → s.claims i = 0)
    (hwrites : ∀ k, pc.writes = some k → s.claims i = 1) : Calls r lap (s.setPc i pc) where
  seeks := forall_update (P := fun j (pc : Pc V) => pc.seeks → s.claims j = 0)
    (fun j _ => h.seeks j) hseeks
  writes := forall_update (P := fun j (pc : Pc V) => ∀ k, pc.writes = some k → s.claims j = 1)
    (fun j _ => h.writes j) hwrites
  peak := h.peak
  answers := h.answers
  missed := h.missed

/-- A call returns a sound answer. -/
theorem Calls.answer {i : ι} {result : Option Bool} (h : Calls r lap s)
    (hsound : Answer.Sound r.cap lap ⟨result, s.claims i, s.peak i⟩) :
    Calls r lap (s.answer i result) := by
  have hidle : Calls r lap (s.setPc i .idle) := h.setPc nofun nofun
  refine { hidle with answers := fun a ha => ?_ }
  rcases List.mem_cons.mp ha with rfl | ha
  · exact hsound
  · exact h.answers a ha

/-- The push at its compare-exchange has claimed nothing before. -/
theorem Calls.claim {i : ι} {v : V} (h : Calls r lap s) (hinv : Inv r (s.claim r i v))
    (hclaims : s.claims i = 0) : Calls r lap (s.claim r i v) := by
  have hcap : (s.pushed ++ [v]).length ≤ s.claimed + r.cap := hinv.cells.room
  rw [List.length_append, List.length_singleton] at hcap
  refine ⟨?_, ?_, fun j => ⟨?_, ?_⟩, h.answers, h.missed⟩
  · refine forall_update (P := fun j (pc : Pc V) => pc.seeks → update s.claims i _ j = 0)
      (fun j hj => ?_) nofun
    rw [update_of_ne hj]
    exact h.seeks j
  · refine forall_update (P := fun j (pc : Pc V) => ∀ k, pc.writes = some k →
      update s.claims i _ j = 1) (fun j hj => ?_) fun _ _ => ?_
    · rw [update_of_ne hj]
      exact h.writes j
    · rw [update_self, hclaims]
  · simp only [St.claim, St.unclaimed, List.length_append, List.length_singleton]
    exact le_max_right ..
  · simp only [St.claim]
    exact max_le (h.peak j).2 (by omega)

/-- A step of a call. -/
theorem Calls.go {i : ι} {choice : Bool} (h : Calls r lap s) (hinv : Inv r s)
    (hok : wrapOk r lap s (.go i choice)) (hstep : stepGo r s i choice = some t) :
    Calls r lap t := by
  cases goStep_of_stepGo hstep with
  | load pc hseeks hnext =>
    refine h.setPc (fun _ => h.seeks i hseeks) ?_
    rcases hnext with ⟨v, rfl⟩ | ⟨v, rfl⟩ | ⟨v, one, rfl⟩ <;> rintro _ ⟨⟩
  | keep tail k pc hold hnext =>
    have hseeks : (s.pc i).seeks := by
      rcases hold with ⟨v, hpc⟩ | ⟨v, one, hpc⟩ <;> (rw [hpc]; trivial)
    refine h.setPc (fun _ => h.seeks i hseeks) ?_
    rcases hnext with ⟨v, rfl⟩ | ⟨v, rfl⟩ <;> rintro _ ⟨⟩
  | enter v one tail k hpc hstamp =>
    exact h.setPc (fun _ => h.seeks i (by rw [hpc]; trivial)) (by rintro _ ⟨⟩)
  | refuse v tail k hpc hfull =>
    have hseeks : (s.pc i).seeks := by rcases hpc with hpc | hpc <;> (rw [hpc]; trivial)
    have hpos : tail = r.enc k ∧ k ≤ s.pushed.length := by
      have hpci := hinv.pc i
      rcases hpc with hpc | hpc <;> (rw [hpc] at hpci; exact hpci)
    have hwrap := hok.1 k (by rcases hpc with hpc | hpc <;> (rw [hpc]; rfl))
    have hslack : (s.pc i).slack lap = lap := by rcases hpc with hpc | hpc <;> (rw [hpc]; rfl)
    obtain ⟨hge, hle⟩ := h.peak i
    refine h.answer ⟨by rintro ⟨⟩, fun _ => h.seeks i hseeks, fun hlap _ => ?_⟩
    have hcap := hinv.full_of_refuse hpos.2 (by omega) (hfull.trans hpos.1)
    exact Nat.le_antisymm hle (hcap ▸ hge)
  | giveUp hseeks => exact h.answer ⟨by rintro ⟨⟩, fun _ => h.seeks i hseeks, by rintro _ ⟨⟩⟩
  | claim v one k hpc =>
    have hwrap := hok.1 k (by rw [hpc]; rfl)
    exact h.claim (hinv.claim hpc (by omega)) (h.seeks i (by rw [hpc]; trivial))
  | write v tail k hpc =>
    have hone := h.writes i k (by rw [hpc]; rfl)
    have hset : Calls r lap (s.setPc i (.publish v tail k)) :=
      h.setPc (by rintro ⟨⟩) fun _ _ => hone
    exact { hset with }
  | publish v tail k hpc =>
    have hone := h.writes i k (by rw [hpc]; rfl)
    have hstamp : Calls r lap { s with
      stamp := update s.stamp (r.index tail) (tail + 1) } := { h with }
    exact hstamp.answer ⟨fun _ => hone, fun hne => absurd rfl hne, by rintro _ ⟨⟩⟩
  | popLoad pc hseeks hnext =>
    rcases hnext with ⟨select, rfl⟩ | ⟨select, rfl⟩
    · exact h.setPc (by rintro ⟨⟩) (by rintro _ ⟨⟩)
    · exact h.setPc (by rintro ⟨⟩) (by rintro _ ⟨⟩)
  | popEnter | popKeep | read => exact h.setPc (by rintro ⟨⟩) (by rintro _ ⟨⟩)
  | miss select k hpc =>
    have hidle : Calls r lap (s.setPc i .idle) := h.setPc (by rintro ⟨⟩) (by rintro _ ⟨⟩)
    have hwrap := hok.2 k (by rw [hpc]; rfl)
    have hpci := hinv.pc i
    rw [hpc] at hwrap hpci
    rw [Pc.slack] at hwrap
    refine { hidle with missed := fun hlap n hn => ?_ }
    rcases List.mem_cons.mp hn with rfl | hn
    · exact hinv.empty_of_miss hpci.2 (by omega) hpci.1
    · exact h.missed hlap n hn
  | take select k hpc =>
    -- the number of unclaimed messages shrinks
    have hless : s.pushed.length - (s.claimed + 1) ≤ s.unclaimed := by
      rw [St.unclaimed]
      omega
    refine ⟨forall_update (P := fun j (pc : Pc V) => pc.seeks → s.claims j = 0)
      (fun j _ => h.seeks j) ?_,
      forall_update (P := fun j (pc : Pc V) => ∀ k, pc.writes = some k → s.claims j = 1)
        (fun j _ => h.writes j) ?_, fun j => ⟨hless.trans (h.peak j).1, (h.peak j).2⟩, h.answers,
      h.missed⟩
    · cases select <;> rintro ⟨⟩
    · cases select <;> rintro _ ⟨⟩
  | release tok msg hpc =>
    have hidle : Calls r lap (s.setPc i .idle) := h.setPc (by rintro ⟨⟩) (by rintro _ ⟨⟩)
    exact { hidle with }

/-- **Every answer is right after every action.** -/
theorem Calls.step {a : Act ι V} (h : Calls r lap s) (hinv : Inv r s) (hok : wrapOk r lap s a)
    (hstep : step r s a = some t) : Calls r lap t := by
  cases a with
  | push i v one =>
    simp only [Mpmc.step] at hstep
    split_ifs at hstep
    cases hstep
    have hcap : s.unclaimed ≤ r.cap := by
      have := hinv.cells.room
      rw [St.unclaimed]
      omega
    refine ⟨?_, ?_, fun j => ?_, h.answers, h.missed⟩
    · refine forall_update (P := fun j (pc : Pc V) => pc.seeks → update s.claims i 0 j = 0)
        (fun j hj => ?_) fun _ => update_self ..
      rw [update_of_ne hj]
      exact h.seeks j
    · refine forall_update (P := fun j (pc : Pc V) => ∀ k, pc.writes = some k →
        update s.claims i 0 j = 1) (fun j hj => ?_) (by rintro _ ⟨⟩)
      rw [update_of_ne hj]
      exact h.writes j
    · show s.unclaimed ≤ update s.peak i s.unclaimed j ∧
        update s.peak i s.unclaimed j ≤ r.cap
      by_cases hji : j = i
      · rw [hji, update_self]
        exact ⟨Nat.le_refl _, hcap⟩
      · rw [update_of_ne hji]
        exact h.peak j
  | pop | select =>
    simp only [Mpmc.step] at hstep
    split_ifs at hstep
    cases hstep
    exact h.setPc (by rintro ⟨⟩) (by rintro _ ⟨⟩)
  | redeem i =>
    simp only [Mpmc.step] at hstep
    cases hpc : s.pc i with
    | token tok =>
      simp only [hpc] at hstep
      cases hstep
      exact h.setPc (by rintro ⟨⟩) (by rintro _ ⟨⟩)
    | idle | load | popLoad | oneHead | look | cas | checkHead | write | publish | popLook
    | popCas | popTail | read | release =>
      simp [hpc] at hstep
  | go i choice => exact h.go hinv hok hstep

theorem calls_of_reach (h : Reach (system r) (wrapOk r lap) s) : Calls r lap s := by
  induction h with
  | init hs => cases hs; exact calls_new
  | step a hs hok hstep ih => exact ih.step (inv_of_reach hs) hok hstep

end Calls

/-! ## The refinement -/

section Refines

variable {r : Ring} {ι V : Type} {s : St ι V} {lap : Nat}

/-- A queue of capacity `cap`. The condition on the run leaves `lap` of slack where one position is
compared with the other, and `false` means full and `None` means empty if that is a whole lap. -/
structure IsFifo (r : Ring) (lap : Nat) (s : St ι V) : Prop where
  /-- The pop or the token that claimed position `k` returns the `k`-th value, and is the only one
  to. -/
  delivers : Delivers s.pushed s.returned
  /-- What was claimed is returned, or the operation that claimed it is still to read it. -/
  claimed : ∀ k, k < s.claimed → k ∈ s.returned.map Prod.fst ∨ ∃ i, (s.pc i).reads = some k
  capacity : s.claimed ≤ s.pushed.length ∧ s.pushed.length ≤ s.claimed + r.cap
  /-- A slot is written after every earlier message in it was read. -/
  write : ∀ i v tail k, s.pc i = .write v tail k →
    ∀ k', k' < k → k' % r.cap = r.index tail → k' ∈ s.returned.map Prod.fst
  /-- A slot that is read holds its message, and nobody writes it. -/
  read : ∀ i t, s.pc i = .read t → s.value t.index = s.pushed[t.k]? ∧
    ∀ j v tail k, s.pc j = .write v tail k → r.index tail ≠ t.index
  answers : ∀ a ∈ s.answers, a.Sound r.cap lap
  /-- `None` is returned when nothing is unclaimed. -/
  missed : r.cap ≤ lap → ∀ n ∈ s.missed, n = 0

/-- The invariants make a queue. -/
theorem Inv.isFifo (h : Inv r s) (hcalls : Calls r lap s) : IsFifo r lap s := by
  have hle := h.cells.le
  have hroom := h.cells.room
  have hindex {i : ι} {v : V} {tail k : Nat} (hpc : s.pc i = .write v tail k) :
      r.index tail = k % r.cap := by
    have hpci := h.pc i
    rw [hpc] at hpci
    rw [hpci.1, Ring.index_enc]
  refine ⟨h.delivers, ?_, ⟨hle, hroom⟩, ?_, ?_, hcalls.answers, hcalls.missed⟩
  · intro k hk
    by_cases hreads : ∃ i, (s.pc i).reads = some k
    · exact .inr hreads
    · exact .inl ((h.returned k).mpr ⟨hk, fun i hi => hreads ⟨i, hi⟩⟩)
  · intro i v tail k hpc k' hlt hslot
    rw [hindex hpc] at hslot
    obtain ⟨hge, hlt'⟩ := h.cells.writeLt i k (by rw [hpc]; rfl)
    -- the earlier message is a whole lap behind, so no reader of it can be left
    have hlap : k' + r.cap ≤ k := by
      by_contra hnear
      exact mod_ne hlt (by omega) hslot
    refine (h.returned k').mpr ⟨by omega, fun j hj => ?_⟩
    have := (h.cells.readLt j k' hj).2
    omega
  · intro i tok hpc
    have hpci := h.pc i
    have hreads : (s.pc i).reads = some tok.k := by rw [hpc]; rfl
    rw [hpc] at hpci
    rw [hpci.index]
    refine ⟨(h.cells.reading i tok.k hreads).2, fun j v tail k hpcj => ?_⟩
    rw [hindex hpcj]
    exact h.cells.write_ne_read (by rw [hpcj]; rfl) hreads

variable [DecidableEq ι]

/-- **`ArrayQueue` refines a bounded queue**, also when claiming and reading are split, while no
position moves by a full wrap between its load and its use by an operation. With one lap less where
the operation compares it with the other position, `false` means full and `None` means empty. -/
theorem arrayQueue_isFifo (h : Reach (system r) (wrapOk r lap) s) : IsFifo r lap s :=
  (inv_of_reach h).isFifo (calls_of_reach h)

omit [DecidableEq ι] in
instance (r : Ring) (lap : Nat) (s : St ι V) : (a : Act ι V) → Decidable (wrapOk r lap s a)
  | .go i _ => decidable_of_iff
      ((∀ k ∈ (s.pc i).loadedTail, s.pushed.length + (s.pc i).slack lap < k + r.period) ∧
        ∀ k ∈ (s.pc i).loadedHead, s.claimed + (s.pc i).slack lap < k + r.period) Iff.rfl
  | .push _ _ _ | .pop _ | .select _ | .redeem _ => instDecidableTrue

/-- The ring of a queue of capacity two on a 64-bit machine. -/
def ring2 : Ring := ⟨64, 2, Nat.zero_lt_two, by decide⟩

/-- Two tokens are redeemed in the other order; a push between them finds its slot neither full nor
free, and one after them goes through. -/
theorem arrayQueue_isFifo_tokens : ∃ s : St (Fin 3) Nat, Reach (system ring2) (wrapOk ring2 2) s ∧
    IsFifo ring2 2 s ∧ s.returned = [(1, some 8), (0, some 7)] ∧
    s.answers.map Answer.result = [none, some true, some true] := by
  have hnew : Reach (system (ι := Fin 3) (V := Nat) ring2) (wrapOk ring2 2) St.new := .init rfl
  obtain ⟨s, hs, hret⟩ := hnew.exists_of_run
    [.push 0 7 false, .go 0 false, .go 0 false, .go 0 false, .go 0 false, .go 0 false,
      .push 0 8 true, .go 0 false, .go 0 false, .go 0 false, .go 0 false, .go 0 false, .go 0 false,
      .select 1, .go 1 false, .go 1 false, .go 1 false,
      .select 2, .go 2 false, .go 2 false, .go 2 false,
      .redeem 2, .go 2 false, .go 2 false,
      .push 0 9 true, .go 0 false, .go 0 false, .go 0 false,
      .redeem 1, .go 1 false, .go 1 false]
    (fun s => s.returned = [(1, some 8), (0, some 7)] ∧
      s.answers.map Answer.result = [none, some true, some true]) (by decide +kernel)
  exact ⟨s, hs, arrayQueue_isFifo hs, hret⟩

end Refines

/-! ## A call across a full wrap, less one lap

One push is stopped after it has loaded the tail. The other agent pushes and pops one message after
the other, so that the queue never holds more than one, until the head has come around to one lap
behind that tail. -/

section Late

variable {r : Ring} {s t : St Bool Unit} {p : Pc Unit} {n m : Nat}

/-- The push of `false` is stopped; `p` is the position of the other agent. -/
structure Late (r : Ring) (p : Pc Unit) (n m : Nat) (s : St Bool Unit) : Prop where
  reach : Reach (system r) (wrapOk r 0) s
  stopped : s.pc false = .oneHead () (r.enc r.cap) r.cap
  pc : s.pc true = p
  pushed : s.pushed.length = n
  claimed : s.claimed = m
  peak : s.peak false ≤ 1

/-- The other agent works with the present positions. -/
theorem Late.ok {choice : Bool} (h : Late r p n m s) (htail : ∀ k, p.loadedTail = some k → k = n)
    (hhead : ∀ k, p.loadedHead = some k → k = m) : wrapOk r 0 s (.go true choice) := by
  have hperiod := r.cap_lt_period
  refine ⟨fun k hk => ?_, fun k hk => ?_⟩
  · rw [h.pc] at hk
    rw [h.pushed, htail k hk, Pc.slack_zero]
    omega
  · rw [h.pc] at hk
    rw [h.claimed, hhead k hk, Pc.slack_zero]
    omega

/-- A step that only moves the other agent. -/
theorem Late.move {p' : Pc Unit} (h : Late r p n m s)
    (htail : ∀ k, p.loadedTail = some k → k = n) (hhead : ∀ k, p.loadedHead = some k → k = m)
    (hstep : stepGo r s true false = some (s.setPc true p')) : Late r p' n m (s.setPc true p') :=
  ⟨.step (.go true false) h.reach (h.ok htail hhead) hstep, h.stopped, rfl, h.pushed, h.claimed,
    h.peak⟩

theorem Late.writes_ne (h : Late r p n m s) (hp : p.writes = none) (i : Bool) (k : Nat) :
    (s.pc i).writes ≠ some k := by
  cases i with
  | false => rw [h.stopped]; nofun
  | true => rw [h.pc, hp]; nofun

theorem Late.reads_ne (h : Late r p n m s) (hp : p.reads = none) (i : Bool) (k : Nat) :
    (s.pc i).reads ≠ some k := by
  cases i with
  | false => rw [h.stopped]; nofun
  | true => rw [h.pc, hp]; nofun

/-! ### One message in -/

/-- A push loads the tail and the stamp. -/
theorem Late.look (h : Late r .idle n n s) : ∃ t, Late r (.look () false (r.enc n) n) n n t := by
  have hinv := inv_of_reach h.reach
  have hpush : step r s (.push true () false) = some { s with
      pc := update s.pc true (.load () false)
      claims := update s.claims true 0
      peak := update s.peak true s.unclaimed } := by
    simp [step, h.pc]
  have h1 : Late r (.load () false) n n { s with
      pc := update s.pc true (.load () false)
      claims := update s.claims true 0
      peak := update s.peak true s.unclaimed } :=
    ⟨.step (.push true () false) h.reach trivial hpush, h.stopped, rfl, h.pushed, h.claimed, h.peak⟩
  have htail : s.tail = r.enc n := by rw [hinv.tail, h.pushed]
  have hload : stepGo r { s with
      pc := update s.pc true (.load () false)
      claims := update s.claims true 0
      peak := update s.peak true s.unclaimed } true false =
      some (St.setPc { s with
        pc := update s.pc true (.load () false)
        claims := update s.claims true 0
        peak := update s.peak true s.unclaimed } true (.look () false (r.enc n) n)) := by
    simp [stepGo, htail, h.pushed]
  exact ⟨_, h1.move (by rintro _ ⟨⟩) (by rintro _ ⟨⟩) hload⟩

/-- The queue is empty and nobody reads, so the slot of the next message is free. -/
theorem Late.enter (h : Late r (.look () false (r.enc n) n) n n s) :
    ∃ t, Late r (.cas () false (r.enc n) n) n n t := by
  have hinv := inv_of_reach h.reach
  have hcap := r.cap_pos
  have hfree : Free r.cap (fun i => (s.pc i).reads) s.pushed.length s.claimed := by
    rw [h.pushed, h.claimed]
    rcases Nat.lt_or_ge n r.cap with hlt | hge
    · exact .inl hlt
    · exact .inr ⟨n - r.cap, by omega, by omega, fun i => h.reads_ne rfl i _⟩
  have hstamp : r.enc n = s.stamp (r.index (r.enc n)) := by
    rw [Ring.index_enc, ← h.pushed]
    exact (hinv.cells.stamp_of_free hfree).symm
  have hlook : stepGo r s true false = some (s.setPc true (.cas () false (r.enc n) n)) := by
    simp [stepGo, h.pc, ← hstamp]
  exact ⟨_, h.move (fun k hk => (Option.some.inj hk).symm) nofun hlook⟩

/-- It claims its position. -/
theorem Late.claim (h : Late r (.cas () false (r.enc n) n) n n s) :
    ∃ t, Late r (.write () (r.enc n) n) (n + 1) n t := by
  have hinv := inv_of_reach h.reach
  have htail : s.tail = r.enc n := by rw [hinv.tail, h.pushed]
  have hcas : stepGo r s true false = some (s.claim r true ()) := by
    simp [stepGo, h.pc, htail]
  refine ⟨_, .step (.go true false) h.reach
    (h.ok (fun k hk => (Option.some.inj hk).symm) nofun) hcas, h.stopped, ?_, ?_, h.claimed, ?_⟩
  · simp [St.claim, htail, h.pushed]
  · simp [St.claim, h.pushed]
  · have hone : s.pushed.length + 1 - s.claimed = 1 := by rw [h.pushed, h.claimed]; omega
    show max (s.peak false) (s.pushed.length + 1 - s.claimed) ≤ 1
    rw [hone]
    exact max_le h.peak (Nat.le_refl _)

/-- It writes and publishes. -/
theorem Late.publish (h : Late r (.write () (r.enc n) n) (n + 1) n s) :
    ∃ t, Late r .idle (n + 1) n t := by
  have hwrite : stepGo r s true false = some { s with
      value := update s.value (r.index (r.enc n)) (some ())
      pc := update s.pc true (.publish () (r.enc n) n) } := by
    simp [stepGo, h.pc]
  have h1 : Late r (.publish () (r.enc n) n) (n + 1) n { s with
      value := update s.value (r.index (r.enc n)) (some ())
      pc := update s.pc true (.publish () (r.enc n) n) } :=
    ⟨.step (.go true false) h.reach (h.ok nofun nofun) hwrite, h.stopped, rfl, h.pushed, h.claimed,
      h.peak⟩
  have hstamp : stepGo r { s with
      value := update s.value (r.index (r.enc n)) (some ())
      pc := update s.pc true (.publish () (r.enc n) n) } true false = some { s with
      value := update s.value (r.index (r.enc n)) (some ())
      stamp := update s.stamp (r.index (r.enc n)) (r.enc n + 1)
      pc := update s.pc true .idle
      answers := ⟨some true, s.claims true, s.peak true⟩ :: s.answers } := by
    simp [stepGo, St.answer]
  exact ⟨_, .step (.go true false) h1.reach (h1.ok nofun nofun) hstamp, h.stopped, rfl, h.pushed,
    h.claimed, h.peak⟩

/-! ### One message out -/

/-- A pop loads the head and the stamp. -/
theorem Late.popLook (h : Late r .idle (n + 1) n s) :
    ∃ t, Late r (.popLook false (r.enc n) n) (n + 1) n t := by
  have hinv := inv_of_reach h.reach
  have hpop : step r s (.pop true) = some (s.setPc true (.popLoad false)) := by simp [step, h.pc]
  have h1 : Late r (.popLoad false) (n + 1) n (s.setPc true (.popLoad false)) :=
    ⟨.step (.pop true) h.reach trivial hpop, h.stopped, rfl, h.pushed, h.claimed, h.peak⟩
  have hload : stepGo r (s.setPc true (.popLoad false)) true false =
      some ((s.setPc true (.popLoad false)).setPc true (.popLook false (r.enc n) n)) := by
    simp [stepGo, St.setPc, hinv.head, h.claimed]
  exact ⟨_, h1.move (by rintro _ ⟨⟩) (by rintro _ ⟨⟩) hload⟩

/-- The message is published, so its reader is let in. -/
theorem Late.take (h : Late r (.popLook false (r.enc n) n) (n + 1) n s) :
    ∃ t tok, Late r (.read tok) (n + 1) (n + 1) t := by
  have hinv := inv_of_reach h.reach
  have hpushed := h.pushed
  have hclaimed := h.claimed
  have hstamp : r.enc n + 1 = s.stamp (r.index (r.enc n)) := by
    rw [Ring.index_enc]
    exact (hinv.cells.holding n (by omega) (by omega) fun i => h.writes_ne rfl i n).1.symm
  have hlook : stepGo r s true false = some (s.setPc true (.popCas false (r.enc n) n)) := by
    simp [stepGo, h.pc, ← hstamp]
  have hnow (k : Nat) (hk : some n = some k) : k = n := (Option.some.inj hk).symm
  have h1 := h.move nofun hnow hlook
  have hhead : s.head = r.enc n := by rw [hinv.head, h.claimed]
  have hcas : stepGo r (s.setPc true (.popCas false (r.enc n) n)) true false =
      some ((s.setPc true (.popCas false (r.enc n) n)).take r true false) := by
    simp [stepGo, St.setPc, hhead]
  refine ⟨_, _, .step (.go true false) h1.reach (h1.ok nofun hnow) hcas, h.stopped, rfl, h.pushed,
    ?_, h.peak⟩
  show s.claimed + 1 = n + 1
  rw [h.claimed]

/-- It reads and gives the slot back. -/
theorem Late.release {tok : Token} (h : Late r (.read tok) (n + 1) (n + 1) s) :
    ∃ t, Late r .idle (n + 1) (n + 1) t := by
  have hread : stepGo r s true false =
      some (s.setPc true (.release tok (s.value tok.index))) := by
    simp [stepGo, h.pc]
  have h1 := h.move nofun nofun hread
  have hrelease : stepGo r (s.setPc true (.release tok (s.value tok.index))) true false =
      some { s with
        stamp := update s.stamp tok.index tok.stamp
        pc := update s.pc true .idle
        returned := s.returned ++ [(tok.k, s.value tok.index)] } := by
    simp [stepGo, St.setPc]
  exact ⟨_, .step (.go true false) h1.reach (h1.ok nofun nofun) hrelease, h.stopped, rfl, h.pushed,
    h.claimed, h.peak⟩

/-! ### The whole wrap -/

theorem Late.round (h : Late r .idle n n s) : ∃ t, Late r .idle (n + 1) (n + 1) t := by
  obtain ⟨s1, h1⟩ := h.look
  obtain ⟨s2, h2⟩ := h1.enter
  obtain ⟨s3, h3⟩ := h2.claim
  obtain ⟨s4, h4⟩ := h3.publish
  obtain ⟨s5, h5⟩ := h4.popLook
  obtain ⟨s6, tok, h6⟩ := h5.take
  exact h6.release

/-- The head has come around to one lap behind the loaded tail. -/
theorem Late.refuse (h : Late r .idle r.period r.period s) :
    ∃ t : St Bool Unit, Reachable (system r) t ∧
      ∃ a ∈ t.answers, a.result = some false ∧ a.peak ≤ 1 := by
  have hinv := inv_of_reach h.reach
  have hhead : r.addLap s.head = r.enc r.cap := by
    rw [hinv.head, h.claimed, Ring.addLap_enc, Nat.add_comm, Ring.enc_add_period]
  have hstep : stepGo r s false false = some (s.answer false (some false)) := by
    simp [stepGo, h.stopped, hhead]
  exact ⟨_, .step (.go false false) (h.reach.mono fun _ _ _ => trivial) trivial hstep, _,
    List.mem_cons_self .., rfl, h.peak⟩

/-- **A one-shot push can be refused by a queue that is nowhere near full**: it held at most one
message at every instant of the call, and its capacity is two. -/
theorem arrayQueue_refused_late : ∃ s : St Bool Unit, Reachable (system ring2) s ∧
    ∃ a ∈ s.answers, a.result = some false ∧ a.peak < 2 := by
  have hnew : Reach (system ring2) (wrapOk ring2 0) (St.new : St Bool Unit) := .init rfl
  obtain ⟨s, hs, h1, h2, h3, h4, h5⟩ := hnew.exists_of_run
    [.push true () false, .go true false, .go true false, .go true false, .go true false,
      .go true false, .pop true, .go true false, .go true false, .go true false, .go true false,
      .go true false,
      .push true () false, .go true false, .go true false, .go true false, .go true false,
      .go true false, .push false () true, .go false false,
      .pop true, .go true false, .go true false, .go true false, .go true false, .go true false]
    (fun s => s.pc false = .oneHead () (ring2.enc 2) 2 ∧ s.pc true = .idle ∧
      s.pushed.length = 2 ∧ s.claimed = 2 ∧ s.peak false ≤ 1) (by decide +kernel)
  have hlate : Late ring2 .idle 2 2 s := ⟨hs, h1, h2, h3, h4, h5⟩
  obtain ⟨t, ht⟩ := exists_rounds (P := fun n => Late ring2 .idle n n) (fun _ _ h => h.round) hlate
    ring2.cap_lt_period.le
  obtain ⟨u, hu, a, ha, hresult, hpeak⟩ := ht.refuse
  exact ⟨u, hu, a, ha, hresult, Nat.lt_succ_of_le hpeak⟩

end Late

end Crossfire.ArrayQueue.Mpmc
