import Crossfire.ArrayQueue.Mpsc

/-!
# What the push calls of `ArrayQueueMpsc` answer

`arrayMpsc_isFifo` is the refinement of a bounded queue, if the tail moves by less than a full wrap
while a push call is between its read of `sender` and the use of it. A call answers `false` when the
head it loads is its copy of the head. If the tail has then moved by less than a full wrap, less one
lap, the head is really the old one and the queue is full (`Calls`). Without that lap the answer can
be wrong: `arrayMpsc_refused_late` is a run in which the tail moves by almost a full wrap during a
call and an empty queue is reported full.
-/

set_option autoImplicit false

namespace Crossfire.ArrayQueue.Mpsc

open Lib.Interleaving Lib.Packed Lib.Lap Lib.Fifo Lib.Slots Function

section Calls

variable {r : Ring} {ι V : Type} {s t : St ι V} {hc tc lap : Nat}

/-- The history of the push calls. -/
structure Calls (r : Ring) (lap : Nat) (s : St ι V) : Prop where
  seeks : ∀ i, (s.tx i).seeks → s.claims i = 0
  writes : ∀ i k, (s.tx i).writes = some k → s.claims i = 1
  peak : ∀ i, s.unpopped ≤ s.peak i ∧ s.peak i ≤ r.cap
  answers : ∀ a ∈ s.answers, a.Sound r.cap lap

theorem calls_new : Calls r lap (St.new : St ι V) :=
  ⟨nofun, nofun, fun _ => ⟨Nat.le_refl _, Nat.zero_le _⟩, nofun⟩

/-- A step of the consumer. -/
theorem Calls.goRx (h : Calls r lap s) (hinv : Inv r hc tc s) (hstep : stepRx r s = some t) :
    Calls r lap t := by
  have hrx := hinv.rx
  cases hpc : s.rx with
  | idle => simp [stepRx, hpc] at hstep
  | load mode =>
    simp only [stepRx, hpc] at hstep
    split_ifs at hstep
    · cases hstep; exact { h with }
    · cases hstep; exact { h with }
    · cases hstep; exact { h with }
  | loadTail mode head =>
    simp only [stepRx, hpc] at hstep
    split_ifs at hstep
    · cases hstep; exact { h with }
    · cases hstep; exact { h with }
  | wait mode tok target =>
    simp only [stepRx, hpc] at hstep
    split_ifs at hstep
    · cases hstep; exact { h with }
    · cases hstep; exact { h with }
    · cases hstep; exact h
  | read tok =>
    simp only [stepRx, hpc] at hstep
    cases hstep
    exact { h with }
  | store tok msg =>
    rw [hpc] at hrx
    simp only [stepRx, hpc] at hstep
    cases hstep
    refine { h with peak := fun i => ⟨?_, (h.peak i).2⟩ }
    have hle : s.pushed.length - (tok.k + 1) ≤ s.unpopped := by
      rw [hrx.2.1.k, St.unpopped]
      omega
    exact hle.trans (h.peak i).1

/-- **A head that equals the copy is the old head**, and then the queue is full. -/
theorem Inv.full_of_refuse {i : ι} {v : V} {one : Bool} {senderVal k : Nat} (h : Inv r hc tc s)
    (hpc : s.tx i = .loadHead v one senderVal k) (hwrap : s.pushed.length + r.cap < k + r.period)
    (hsame : low r.word s.recv = high r.word senderVal) : s.unpopped = r.cap := by
  have hlen := h.length_le
  have hpci := h.tx i
  rw [hpc] at hpci
  obtain ⟨hk, n, rfl, rfl, hn⟩ := hpci
  rw [h.recv_low, high_pack (Ring.enc_lt _) (Ring.enc_lt _)] at hsame
  have hold : n = s.claimed := Ring.enc_inj hsame.symm hn (by omega)
  rw [St.unpopped]
  omega

variable [DecidableEq ι]

/-- A producer goes on. -/
theorem Calls.setTx {i : ι} {pc : TxPc V} (h : Calls r lap s)
    (hseeks : pc.seeks → s.claims i = 0) (hwrites : ∀ k, pc.writes = some k → s.claims i = 1) :
    Calls r lap (s.setTx i pc) := by
  refine { h with seeks := fun j hj => ?_, writes := fun j k hj => ?_ }
  · simp only [St.setTx] at hj
    by_cases hji : j = i
    · subst hji
      rw [update_self] at hj
      exact hseeks hj
    · rw [update_of_ne hji] at hj
      exact h.seeks j hj
  · simp only [St.setTx] at hj
    by_cases hji : j = i
    · subst hji
      rw [update_self] at hj
      exact hwrites k hj
    · rw [update_of_ne hji] at hj
      exact h.writes j k hj

/-- A call returns a sound answer. -/
theorem Calls.answer {i : ι} {result : Option Bool} (h : Calls r lap s)
    (hsound : Answer.Sound r.cap lap ⟨result, s.claims i, s.peak i⟩) :
    Calls r lap (s.answer i result) := by
  have hidle : Calls r lap (s.setTx i .idle) := h.setTx nofun nofun
  refine { hidle with answers := fun a ha => ?_ }
  rcases List.mem_cons.mp ha with rfl | ha
  · exact hsound
  · exact h.answers a ha

/-- A step of a producer. -/
theorem Calls.goTx {i : ι} {choice : Bool} (h : Calls r lap s) (hinv : Inv r hc tc s)
    (hwrap : ∀ k, (s.tx i).loaded = some k →
      s.pushed.length + (s.tx i).slack lap < k + r.period)
    (hstep : stepTx r s i choice = some t) : Calls r lap t := by
  cases txStep_of_stepTx hstep with
  | look _ _ hseeks | room _ _ hseeks => exact h.setTx (fun _ => h.seeks i hseeks) (by rintro _ ⟨⟩)
  | refuse v one senderVal k hpc hsame =>
    have hclaims := h.seeks i (by rw [hpc]; trivial)
    have hwrap' := hwrap k (by rw [hpc]; rfl)
    rw [hpc, TxPc.slack] at hwrap'
    obtain ⟨hge, hle⟩ := h.peak i
    refine h.answer ⟨by rintro ⟨⟩, fun _ => hclaims, fun hlap _ => ?_⟩
    exact Nat.le_antisymm hle (hinv.full_of_refuse hpc (by omega) hsame ▸ hge)
  | renew v one senderVal k hpc hne =>
    exact h.setTx (fun _ => h.seeks i (by rw [hpc]; trivial)) (by rintro _ ⟨⟩)
  | giveUp hseeks => exact h.answer ⟨by rintro ⟨⟩, fun _ => h.seeks i hseeks, by rintro _ ⟨⟩⟩
  | claim v one headCached k hpc =>
    have hclaims := h.seeks i (by rw [hpc]; trivial)
    have hwrap' := hwrap k (by rw [hpc]; rfl)
    obtain ⟨hc', hinv'⟩ := hinv.claim (by omega) hpc
    have hcap : (s.pushed ++ [v]).length ≤ s.claimed + r.cap := hinv'.length_le.2
    rw [List.length_append, List.length_singleton] at hcap
    refine ⟨fun j hj => ?_, fun j k' hj => ?_, fun j => ⟨?_, ?_⟩, h.answers⟩
    · simp only [St.claim] at hj ⊢
      by_cases hji : j = i
      · subst hji
        rw [update_self] at hj
        exact hj.elim
      · rw [update_of_ne hji] at hj ⊢
        exact h.seeks j hj
    · simp only [St.claim] at hj ⊢
      by_cases hji : j = i
      · subst hji
        rw [update_self, hclaims]
      · rw [update_of_ne hji] at hj ⊢
        exact h.writes j k' hj
    · simp only [St.claim, St.unpopped, List.length_append, List.length_singleton]
      exact le_max_right ..
    · simp only [St.claim]
      exact max_le (h.peak j).2 (by omega)
  | write v tail k hpc =>
    have hone := h.writes i k (by rw [hpc]; rfl)
    have hset : Calls r lap (s.setTx i (.publish v tail k)) :=
      h.setTx (by rintro ⟨⟩) fun _ _ => hone
    exact { hset with }
  | publish v tail k hpc =>
    have hone := h.writes i k (by rw [hpc]; rfl)
    have hstamp : Calls r lap { s with
      stamp := update s.stamp (r.index tail) (tail + 1) } := { h with }
    exact hstamp.answer ⟨fun _ => hone, fun hne => absurd rfl hne, by rintro _ ⟨⟩⟩

/-- **Every answer is right after every action.** -/
theorem Calls.step {a : Act ι V} (h : Calls r lap s) (hinv : Inv r hc tc s)
    (hwrap : wrapOk r lap s a) (hstep : step r s a = some t) : Calls r lap t := by
  cases a with
  | push i v one =>
    simp only [Mpsc.step] at hstep
    split_ifs at hstep
    cases hstep
    refine ⟨fun j hj => ?_, fun j k hj => ?_, fun j => ?_, h.answers⟩
    · simp only at hj ⊢
      by_cases hji : j = i
      · rw [hji, update_self]
      · rw [update_of_ne hji] at hj ⊢
        exact h.seeks j hj
    · simp only at hj ⊢
      by_cases hji : j = i
      · rw [hji, update_self] at hj
        cases hj
      · rw [update_of_ne hji] at hj ⊢
        exact h.writes j k hj
    · have hcap : s.unpopped ≤ r.cap := by
        have := hinv.length_le.2
        rw [St.unpopped]
        omega
      simp only [St.unpopped] at hcap ⊢
      by_cases hji : j = i
      · rw [hji, update_self]
        exact ⟨Nat.le_refl _, hcap⟩
      · rw [update_of_ne hji]
        exact h.peak j
  | start | redeem =>
    simp only [Mpsc.step] at hstep
    split_ifs at hstep
    cases hstep
    exact { h with }
  | goTx i choice => exact h.goTx hinv hwrap hstep
  | goRx => exact h.goRx hinv hstep

end Calls

/-! ## A bounded queue -/

section Refines

variable {r : Ring} {ι V : Type} {s : St ι V}

/-- A queue of capacity `cap`. The condition on the run leaves `lap` of slack where a push call
compares the head with its copy, and `false` means full if that is a whole lap. -/
structure IsFifo (r : Ring) (lap : Nat) (s : St ι V) : Prop where
  /-- The consumer returns the pushed values in the order of the compare-exchanges, each once. -/
  values : s.returned.map Prod.snd = (s.pushed.take s.claimed).map some
  capacity : s.claimed ≤ s.pushed.length ∧ s.pushed.length ≤ s.claimed + r.cap
  /-- The slot that is written holds no message that is still to be read. -/
  write : ∀ i v tail k, s.tx i = .write v tail k →
    ∀ k', k' < s.pushed.length → k' ≠ k → k' % r.cap = r.index tail → k' < s.claimed
  /-- The slot that is read holds its message, and nobody writes it. -/
  read : ∀ t, s.rx = .read t → s.value t.index = s.pushed[s.claimed]? ∧
    ∀ i v tail k, s.tx i = .write v tail k → r.index tail ≠ t.index
  answers : ∀ a ∈ s.answers, a.Sound r.cap lap
  /-- `pop` returns `None` when nothing is unpopped. -/
  missed : ∀ n ∈ s.missed, n = 0

/-- The invariants make a queue. -/
theorem Inv.isFifo {hc tc lap : Nat} (h : Inv r hc tc s) (hcalls : Calls r lap s) :
    IsFifo r lap s := by
  have hlen := h.length_le
  have hindex {i : ι} {v : V} {tail k : Nat} (hpc : s.tx i = .write v tail k) :
      r.index tail = k % r.cap := by
    have hpci := h.tx i
    rw [hpc] at hpci
    rw [hpci.tail, Ring.index_enc]
  have hwrites {i : ι} {v : V} {tail k : Nat} (hpc : s.tx i = .write v tail k) :
      (s.tx i).writes = some k := by rw [hpc]; rfl
  refine ⟨?_, hlen, ?_, ?_, hcalls.answers, h.missed⟩
  · rw [h.returned]
    exact handed_values hlen.1
  · intro i v tail k hpc k' hlt hne hslot
    rw [hindex hpc] at hslot
    obtain ⟨h1, h2⟩ := h.slots.recent i k (hwrites hpc)
    -- an unpopped message is one of the last `cap`
    by_contra hge
    exact hne (eq_of_mod hlt (by omega) h1 h2 hslot)
  · intro tok hrxpc
    have hrx := h.rx
    rw [hrxpc] at hrx
    obtain ⟨_, hfresh, hdone⟩ := hrx
    obtain ⟨m, _, _, hlt, hm⟩ := hfresh.stamp
    rw [hfresh.index]
    refine ⟨(h.slots.published s.claimed (by omega) (by omega) hdone).2, ?_⟩
    intro i v tail k hpc heq
    rw [hindex hpc] at heq
    obtain ⟨h1, h2⟩ := h.slots.recent i k (hwrites hpc)
    obtain rfl := eq_of_mod h1 h2 (by omega) (by omega) heq
    exact hdone i (hwrites hpc)

end Refines

/-! ## Runs without tokens -/

section PopOnly

variable {r : Ring} {ι V : Type} {s t : St ι V}

/-- The consumer has not started to select. -/
def RxPc.NoSelect : RxPc V → Prop
  | .load mode | .loadTail mode _ | .wait mode _ _ => mode ≠ .select
  | .idle | .read _ | .store _ _ => True

variable [DecidableEq ι]

/-- Without `start_read` there is no token. -/
theorem tokens_of_step {a : Act ι V} (hrx : s.rx.NoSelect) (htokens : s.tokens = [])
    (hok : popOnly s a) (hstep : step r s a = some t) : t.rx.NoSelect ∧ t.tokens = [] := by
  cases a with
  | push i v one =>
    simp only [step] at hstep
    split_ifs at hstep
    cases hstep
    exact ⟨hrx, htokens⟩
  | start mode =>
    simp only [step] at hstep
    split_ifs at hstep
    cases hstep
    exact ⟨hok, htokens⟩
  | redeem tok =>
    simp only [step, htokens] at hstep
    simp at hstep
  | goTx i choice => cases txStep_of_stepTx hstep <;> exact ⟨hrx, htokens⟩
  | goRx =>
    simp only [step, stepRx] at hstep
    cases hpc : s.rx with
    | idle => simp [hpc] at hstep
    | load mode =>
      rw [hpc] at hrx
      simp only [hpc] at hstep
      split_ifs at hstep
      · cases hstep; exact ⟨trivial, htokens⟩
      · cases hstep; exact ⟨hrx, htokens⟩
      · cases hstep; exact ⟨hrx, htokens⟩
    | loadTail mode head =>
      rw [hpc] at hrx
      simp only [hpc] at hstep
      split_ifs at hstep
      · cases hstep; exact ⟨trivial, htokens⟩
      · cases hstep; exact ⟨hrx, htokens⟩
    | wait mode tok target =>
      simp only [hpc] at hstep
      split_ifs at hstep with hstamp hmode
      · rw [hpc] at hrx; exact absurd hmode hrx
      · cases hstep; exact ⟨trivial, htokens⟩
      · cases hstep; exact ⟨hrx, htokens⟩
    | read | store => simp only [hpc] at hstep; cases hstep; exact ⟨trivial, htokens⟩

/-- Without `select` there are no tokens. -/
theorem inv_of_popOnly {lap : Nat}
    (h : Reach (system r) (fun s a => wrapOk r lap s a ∧ popOnly s a) s) :
    (∃ hc tc, Inv r hc tc s) ∧ s.rx.NoSelect ∧ s.tokens = [] := by
  refine h.invariant (P := fun s => (∃ hc tc, Inv r hc tc s) ∧ s.rx.NoSelect ∧ s.tokens = []) ?_ ?_
  · rintro _ rfl
    exact ⟨⟨0, 0, inv_new⟩, trivial, rfl⟩
  · rintro s a t ⟨⟨hc, tc, hinv⟩, hrx, htokens⟩ ⟨hwrap, hok⟩ hstep
    have htoken : tokenOk s a := by cases a <;> first | exact htokens | exact trivial
    exact ⟨hinv.step hwrap htoken hstep, tokens_of_step hrx htokens hok hstep⟩

theorem calls_of_popOnly {lap : Nat}
    (h : Reach (system r) (fun s a => wrapOk r lap s a ∧ popOnly s a) s) : Calls r lap s := by
  induction h with
  | init hs => cases hs; exact calls_new
  | step a hs hok hstep ih =>
    obtain ⟨⟨hc, tc, hinv⟩, _⟩ := inv_of_popOnly hs
    exact ih.step hinv hok.1 hstep

/-- **`ArrayQueueMpsc` refines a bounded queue** while the tail moves by less than a full wrap
between a push call's read of `sender` and the use of it. With one lap less where the call compares
the head with its copy, `false` means full. -/
theorem arrayMpsc_isFifo (cap : Nat) (hpos : 0 < cap) (hlt : cap < 2 ^ 31) (lap : Nat)
    (h : Reach (system (ring cap hpos hlt)) (fun s a =>
      wrapOk (ring cap hpos hlt) lap s a ∧ popOnly s a) s) :
    IsFifo (ring cap hpos hlt) lap s := by
  obtain ⟨⟨hc, tc, hinv⟩, _⟩ := inv_of_popOnly h
  exact hinv.isFifo (calls_of_popOnly h)

omit [DecidableEq ι] in
instance (r : Ring) (lap : Nat) (s : St ι V) : (a : Act ι V) → Decidable (wrapOk r lap s a)
  | .goTx i _ => decidable_of_iff (∀ k ∈ (s.tx i).loaded,
      s.pushed.length + (s.tx i).slack lap < k + r.period) Iff.rfl
  | .push _ _ _ | .start _ | .redeem _ | .goRx => instDecidableTrue

instance {ι : Type} (s : St ι V) : (a : Act ι V) → Decidable (popOnly s a)
  | .start mode => inferInstanceAs (Decidable (mode ≠ .select))
  | .push _ _ _ | .redeem _ | .goTx _ _ | .goRx => instDecidableTrue

/-- Two producers and capacity one: a stalled pusher, a refused push and a one-shot push that loses
its compare-exchange. -/
theorem arrayMpsc_isFifo_one : ∃ s : St Bool Nat,
    Reach (system (ring 1 (by decide) (by decide))) (fun s a =>
        wrapOk (ring 1 (by decide) (by decide)) 1 s a ∧ popOnly s a) s ∧
      IsFifo (ring 1 (by decide) (by decide)) 1 s ∧ s.returned = [(0, some 7)] ∧
      s.answers.map Answer.result = [none, some true, some false] := by
  have hnew : Reach (system (ι := Bool) (V := Nat) (ring 1 (by decide) (by decide))) (fun s a =>
      wrapOk (ring 1 (by decide) (by decide)) 1 s a ∧ popOnly s a) St.new := .init rfl
  obtain ⟨s, hs, hret⟩ := hnew.exists_of_run
    [.push true 7 false, .goTx true false, .goTx true false, .push false 8 false, .goTx false false,
      .goTx false false, .start .pop, .goRx, .goRx, .goRx, .goTx true false, .goTx true false,
      .goRx, .goRx, .goRx, .push false 8 true, .goTx false false, .goTx false false,
      .goTx false true]
    (fun s => s.returned = [(0, some 7)] ∧
      s.answers.map Answer.result = [none, some true, some false]) (by decide +kernel)
  exact ⟨s, hs, arrayMpsc_isFifo 1 _ _ 1 hs, hret⟩

end PopOnly

/-! ## A call across almost a full wrap

One producer is stopped after it has read `sender` and found its copy of the head one lap behind the
tail. The other one and the consumer pass one message after the other through the queue, so that it
never holds more than one, until the head has come around to the copy. -/

section Late

variable {r : Ring} {s t : St Bool Unit} {p : TxPc Unit} {q : RxPc Unit} {n m : Nat}

/-- The tail moves by less than a full wrap during a call. -/
def lateOk (r : Ring) (s : St Bool Unit) (a : Act Bool Unit) : Prop := wrapOk r 0 s a ∧ popOnly s a

instance (r : Ring) (s : St Bool Unit) (a : Act Bool Unit) : Decidable (lateOk r s a) :=
  inferInstanceAs (Decidable (_ ∧ _))

/-- The producer `false` is stopped; `p` and `q` are the positions of the others. -/
structure Late (r : Ring) (p : TxPc Unit) (q : RxPc Unit) (n m : Nat) (s : St Bool Unit) :
    Prop where
  reach : Reach (system r) (lateOk r) s
  stopped : s.tx false = .loadHead () false (pack r.word (r.enc 0) (r.enc r.cap)) r.cap
  tx : s.tx true = p
  rx : s.rx = q
  pushed : s.pushed.length = n
  claimed : s.claimed = m
  peak : s.peak false ≤ 1

theorem Late.inv (h : Late r p q n m s) : ∃ hc tc, Inv r hc tc s := (inv_of_popOnly h.reach).1

/-- The other producer works with the present tail. -/
theorem Late.ok {choice : Bool} (h : Late r p q n m s) (hp : ∀ k, p.loaded = some k → k = n) :
    lateOk r s (.goTx true choice) := by
  refine ⟨fun k hk => ?_, trivial⟩
  have hperiod := r.cap_lt_period
  rw [h.tx] at hk
  rw [h.pushed, hp k hk, TxPc.slack_zero]
  omega

/-! ### The other producer -/

/-- It starts a push. -/
theorem Late.load (h : Late r .idle q n n s) : ∃ t, Late r (.load () false) q n n t := by
  have hstep : step r s (.push true () false) = some { s with
      tx := update s.tx true (.load () false)
      claims := update s.claims true 0
      peak := update s.peak true s.unpopped } := by
    simp [step, h.tx]
  exact ⟨_, .step (.push true () false) h.reach ⟨trivial, trivial⟩ hstep, h.stopped, rfl, h.rx,
    h.pushed, h.claimed, h.peak⟩

/-- A step that only moves the other producer. -/
theorem Late.move {p' : TxPc Unit} (h : Late r p q n m s) (hp : ∀ k, p.loaded = some k → k = n)
    (hstep : stepTx r s true false = some (s.setTx true p')) : Late r p' q n m (s.setTx true p') :=
  ⟨.step (.goTx true false) h.reach (h.ok hp) hstep, h.stopped, rfl, h.rx, h.pushed, h.claimed,
    h.peak⟩

/-- The queue is empty, so the other producer gets to its compare-exchange. -/
theorem Late.seek (h : Late r (.load () false) q n n s) :
    ∃ t senderVal headCached, Late r (.cas () false senderVal headCached n) q n n t ∧
      t.sender = senderVal := by
  obtain ⟨hc, tc, hinv⟩ := h.inv
  by_cases hfull : r.addLap (high r.word s.sender) = low r.word s.sender
  · have hlook : stepTx r s true false = some (s.setTx true (.loadHead () false s.sender n)) := by
      simp [stepTx, h.tx, St.tryPush, hfull, h.pushed]
    have h1 := h.move nofun hlook
    have hcopy := hinv.full_iff.mp hfull
    rw [h.pushed] at hcopy
    have hne : low r.word s.recv ≠ high r.word s.sender := by
      rw [hinv.recv_low, hinv.sender_high, h.claimed]
      intro heq
      have hcap := r.cap_pos
      have hperiod := r.cap_lt_period
      have := Ring.enc_inj heq.symm (by omega) (by omega)
      omega
    have hrenew : stepTx r (s.setTx true (.loadHead () false s.sender n)) true false =
        some ((s.setTx true (.loadHead () false s.sender n)).setTx true
          (.cas () false s.sender (low r.word s.recv) n)) := by
      simp [stepTx, St.setTx, hne]
    exact ⟨_, s.sender, _, h1.move (fun k hk => (Option.some.inj hk).symm) hrenew, rfl⟩
  · have hroom : stepTx r s true false =
        some (s.setTx true (.cas () false s.sender (high r.word s.sender) n)) := by
      simp [stepTx, h.tx, St.tryPush, hfull, h.pushed]
    exact ⟨_, s.sender, _, h.move nofun hroom, rfl⟩

/-- A push claims its position. -/
theorem Late.claim {headCached : Nat} (h : Late r (.cas () false s.sender headCached n) q n n s) :
    ∃ t tail, Late r (.write () tail n) q (n + 1) n t := by
  have hstep : stepTx r s true false = some (s.claim r true () headCached) := by
    simp [stepTx, h.tx]
  refine ⟨_, low r.word s.sender, .step (.goTx true false) h.reach (h.ok ?_) hstep, h.stopped, ?_,
    h.rx, ?_, h.claimed, ?_⟩
  · intro k hk
    exact (Option.some.inj hk).symm
  · simp [St.claim, h.pushed]
  · simp [St.claim, h.pushed]
  · have hone : s.pushed.length + 1 - s.claimed = 1 := by rw [h.pushed, h.claimed]; omega
    show max (s.peak false) (s.pushed.length + 1 - s.claimed) ≤ 1
    rw [hone]
    exact max_le h.peak (Nat.le_refl _)

/-- It writes and publishes. -/
theorem Late.publish {tail : Nat} (h : Late r (.write () tail n) q (n + 1) n s) :
    ∃ t, Late r .idle q (n + 1) n t := by
  have hwrite : stepTx r s true false = some { s with
      value := update s.value (r.index tail) (some ())
      tx := update s.tx true (.publish () tail n) } := by
    simp [stepTx, h.tx]
  have h1 : Late r (.publish () tail n) q (n + 1) n { s with
      value := update s.value (r.index tail) (some ())
      tx := update s.tx true (.publish () tail n) } :=
    ⟨.step (.goTx true false) h.reach (h.ok nofun) hwrite, h.stopped, rfl, h.rx, h.pushed,
      h.claimed, h.peak⟩
  have hstamp : stepTx r { s with
      value := update s.value (r.index tail) (some ())
      tx := update s.tx true (.publish () tail n) } true false = some { s with
      value := update s.value (r.index tail) (some ())
      stamp := update s.stamp (r.index tail) (tail + 1)
      tx := update s.tx true .idle
      answers := ⟨some true, s.claims true, s.peak true⟩ :: s.answers } := by
    simp [stepTx, St.answer]
  exact ⟨_, .step (.goTx true false) h1.reach (h1.ok nofun) hstamp, h.stopped, rfl, h.rx, h.pushed,
    h.claimed, h.peak⟩

/-! ### The consumer -/

/-- A step of the consumer in front of its store. -/
theorem Late.moveRx {q' : RxPc Unit} (h : Late r p q n m s)
    (hstep : stepRx r s = some { s with rx := q' }) : Late r p q' n m { s with rx := q' } :=
  ⟨.step .goRx h.reach ⟨trivial, trivial⟩ hstep, h.stopped, h.tx, rfl, h.pushed, h.claimed, h.peak⟩

/-- A pop finds the message. -/
theorem Late.find (h : Late r p .idle (n + 1) n s) :
    ∃ t tok target, Late r p (.wait .pop tok target) (n + 1) n t := by
  have hstart : step r s (.start .pop) = some { s with rx := .load .pop } := by
    simp [step, h.rx]
  have h1 : Late r p (.load .pop) (n + 1) n { s with rx := .load .pop } :=
    ⟨.step (.start .pop) h.reach ⟨trivial, by rintro ⟨⟩⟩ hstart, h.stopped, h.tx, rfl, h.pushed,
      h.claimed, h.peak⟩
  by_cases hempty : high r.word s.recv = low r.word s.recv
  · have hload : stepRx r { s with rx := .load .pop } =
        some { s with rx := .loadTail .pop (low r.word s.recv) } := by
      simp [stepRx, hempty]
    obtain ⟨hc, tc, hinv⟩ := h.inv
    have hne : low r.word s.recv ≠ low r.word s.sender := by
      rw [hinv.recv_low, hinv.sender_low]
      intro heq
      have := hinv.tail_eq.mp heq
      rw [h.pushed, h.claimed] at this
      omega
    have hfound : stepRx r { s with rx := .loadTail .pop (low r.word s.recv) } =
        some (s.found r .pop (low r.word s.recv) (low r.word s.sender)) := by
      simp [stepRx, hne, St.found]
    exact ⟨_, _, _, (h1.moveRx hload).moveRx hfound⟩
  · have hfound : stepRx r { s with rx := .load .pop } =
        some (s.found r .pop (low r.word s.recv) (high r.word s.recv)) := by
      simp [stepRx, hempty, St.found]
    exact ⟨_, _, _, h1.moveRx hfound⟩

/-- It reads and stores `recv`. -/
theorem Late.take {tok : Token} {target : Nat}
    (h : Late r .idle (.wait .pop tok target) (n + 1) n s) :
    ∃ t, Late r .idle .idle (n + 1) (n + 1) t := by
  obtain ⟨hc, tc, hinv⟩ := h.inv
  have hrx := hinv.rx
  rw [h.rx] at hrx
  obtain ⟨_, hfresh, rfl⟩ := hrx
  have hdone : ∀ i, (s.tx i).writes ≠ some n := by
    intro i
    cases i with
    | false => rw [h.stopped]; rintro ⟨⟩
    | true => rw [h.tx]; rintro ⟨⟩
  have hcap := r.cap_pos
  have hpushed := h.pushed
  have hstamp : s.stamp tok.index = stampOf r s.claimed := by
    rw [hfresh.index, h.claimed]
    exact (hinv.slots.published n (by omega) (by omega) hdone).1
  have hwait : stepRx r s = some { s with rx := .read tok } := by
    simp [stepRx, h.rx, hstamp]
  have hread : stepRx r { s with rx := .read tok } =
      some { s with rx := .store tok (s.value tok.index) } := rfl
  have h2 := (h.moveRx hwait).moveRx hread
  have hk : tok.k + 1 = n + 1 := by rw [hfresh.k, h.claimed]
  exact ⟨{ s with
      recv := tok.stamp
      rx := .idle
      claimed := tok.k + 1
      returned := s.returned ++ [(tok.k, s.value tok.index)] },
    .step .goRx h2.reach ⟨trivial, trivial⟩ rfl, h.stopped, h.tx, rfl, h.pushed, hk, h.peak⟩

/-! ### The whole wrap -/

theorem Late.round (h : Late r .idle .idle n n s) : ∃ t, Late r .idle .idle (n + 1) (n + 1) t := by
  obtain ⟨s1, h1⟩ := h.load
  obtain ⟨s2, _, headCached, h2, rfl⟩ := h1.seek
  obtain ⟨s3, tail, h3⟩ := h2.claim
  obtain ⟨s4, h4⟩ := h3.publish
  obtain ⟨s5, tok, target, h5⟩ := h4.find
  exact h5.take

/-- The head has come around to the copy, and the tail not to the word that was read. -/
theorem Late.refuse (h : Late r .idle .idle r.period r.period s) :
    ∃ t, Reach (system r) (lateOk r) t ∧ ∃ a ∈ t.answers, a.result = some false ∧ a.peak ≤ 1 := by
  obtain ⟨hc, tc, hinv⟩ := h.inv
  have hcap := r.cap_pos
  have hok : lateOk r s (.goTx false false) := by
    refine ⟨fun k hk => ?_, trivial⟩
    rw [h.stopped] at hk
    obtain rfl : r.cap = k := Option.some.inj hk
    rw [h.pushed, TxPc.slack_zero]
    omega
  have hhead : low r.word s.recv = high r.word (pack r.word (r.enc 0) (r.enc r.cap)) := by
    have hwrap := Ring.enc_add_period (r := r) 0
    rw [Nat.zero_add] at hwrap
    rw [hinv.recv_low, h.claimed, high_pack (Ring.enc_lt _) (Ring.enc_lt _), hwrap]
  have hstep : stepTx r s false false = some (s.answer false (some false)) := by
    simp [stepTx, h.stopped, hhead]
  exact ⟨_, .step (.goTx false false) h.reach hok hstep, _, List.mem_cons_self .., rfl, h.peak⟩

/-- **A push can be refused by a queue that is nowhere near full**, although the tail moved by less
than a full wrap during the call: it held at most one message at every instant of the call, and its
capacity is two. -/
theorem arrayMpsc_refused_late : ∃ s : St Bool Unit,
    Reach (system (ring 2 (by decide) (by decide))) (lateOk (ring 2 (by decide) (by decide))) s ∧
      ∃ a ∈ s.answers, a.result = some false ∧ a.peak < 2 := by
  have hnew : Reach (system (ring 2 (by decide) (by decide)))
      (lateOk (ring 2 (by decide) (by decide))) St.new := .init rfl
  obtain ⟨s, hs, h1, h2, h3, h4, h5, h6⟩ := hnew.exists_of_run
    [.push true () false, .goTx true false, .goTx true false, .goTx true false, .goTx true false,
      .start .pop, .goRx, .goRx, .goRx, .goRx, .goRx,
      .push true () false, .goTx true false, .goTx true false, .goTx true false, .goTx true false,
      .push false () false, .goTx false false, .start .pop, .goRx, .goRx, .goRx, .goRx, .goRx]
    (fun s => s.tx false = .loadHead () false (pack 32 ((ring 2 (by decide) (by decide)).enc 0)
      ((ring 2 (by decide) (by decide)).enc 2)) 2 ∧ s.tx true = .idle ∧ s.rx = .idle ∧
      s.pushed.length = 2 ∧ s.claimed = 2 ∧ s.peak false ≤ 1)
    (by decide +kernel)
  have hlate : Late (ring 2 (by decide) (by decide)) .idle .idle 2 2 s :=
    ⟨hs, h1, h2, h3, h4, h5, h6⟩
  obtain ⟨t, ht⟩ := exists_rounds
    (P := fun n => Late (ring 2 (by decide) (by decide)) .idle .idle n n) (fun _ _ h => h.round)
    hlate (ring 2 (by decide) (by decide)).cap_lt_period.le
  obtain ⟨u, hu, a, ha, hresult, hpeak⟩ := ht.refuse
  exact ⟨u, hu, a, ha, hresult, Nat.lt_succ_of_le hpeak⟩

end Late

end Crossfire.ArrayQueue.Mpsc
