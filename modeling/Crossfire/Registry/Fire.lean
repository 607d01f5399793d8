import Crossfire.Lib.Interleaving
import Crossfire.Registry.Multi
import Mathlib.Logic.Relation

/-!
# One call of `RegistryMulti::fire`

`waker_registry.rs`: `fire` at atomic-operation granularity, with the sections of `pop_first` and
`pop_again` as one step each. Between its steps other threads may register wakers, remove entries
from the queue, change the states of wakers and drop them.

The loop stops at a popped waker whose number is at least the counter that `pop_first` saw, minus
one. The newest entry carries the counter itself, so the entry before it already stops the loop when
the two were registered one after the other, and the newest waiter is left asleep
(`fire_stops_early`). `fire_reaches_waiter` says when exactly this happens: `fired` is what the call
does on a queue, `reached` what it should do, and they agree if and only if the loop stops with
nobody left to wake (`Unhindered`). The numbers are 32-bit values that wrap around and are compared
without regard to that: once the counter has come around, the loop pops what is registered while it
runs, with no bound (`fire_pops_more`), and `fire_pops_le` says that there is no other way for this
to happen.
-/

set_option autoImplicit false

namespace Crossfire.Registry.Fire

open Lib.Interleaving Crossfire.Waker Function

/-! ## The call -/

/-- What `fire` does after `wake` if it is not done. -/
inductive After
  /-- The queue was empty after `pop_first`. -/
  | stop
  /-- Go on after the first waker; `last` is the counter when it was popped. -/
  | first (last : Nat)
  /-- In the loop. -/
  | again (last : Nat)
  deriving DecidableEq, Repr

/-- Program counter of `fire`. -/
inductive FirePc
  /-- `pop_first` loads the flag. -/
  | first
  /-- `pop_first` under the lock. -/
  | firstLock (flag : Flags)
  | wake (w : Nat) (pc : WakePc) (after : After)
  /-- `get_seq() >= last_seq`. -/
  | seqCheck (w last : Nat)
  /-- `pop_again` loads the flag. -/
  | again (last : Nat)
  /-- `pop_again` under the lock. -/
  | againLock (last : Nat)
  | returned (result : WakeResult)
  deriving DecidableEq, Repr

/-- The registry, its wakers and one call of `fire`. -/
structure St where
  reg : RegistryMulti
  waker : Nat → WakerInner
  pc : FirePc
  /-- Wakers on which the call has called `wake_by_ref`, in this order. -/
  woken : List Nat
  /-- Number of live wakers the call has popped. -/
  pops : Nat
  /-- Number of entries when `pop_first` took the lock. -/
  entries : Nat

/-- `fire` is called on the registry `reg`. -/
def St.call (reg : RegistryMulti) (waker : Nat → WakerInner) : St :=
  ⟨reg, waker, .first, [], 0, 0⟩

/-- The waker `w` has not been dropped. -/
def St.alive (s : St) (w : Nat) : Bool := (s.waker w).alive

/-- The waker `w` goes to `state`. -/
def St.setState (s : St) (w : Nat) (state : WakerState) : St :=
  { s with waker := update s.waker w { s.waker w with state := state } }

/-- `fire` goes to `pc`. -/
def St.goto (s : St) (pc : FirePc) : St := { s with pc := pc }

/-- `wake_by_ref`. -/
def St.ring (s : St) (w : Nat) : St := { s with woken := s.woken ++ [w] }

/-- `fire` after `wake` returned. -/
def afterWake (w : Nat) (after : After) (result : WakeResult) : FirePc :=
  if result.isDone then .returned result
  else
    match after with
    | .stop => .returned .next
    | .first last => .again last
    | .again last => .seqCheck w last

/-- The next step of `wake`, or what follows it. -/
def wakeNext (w : Nat) (after : After) : WakePc → FirePc
  | .returned result => afterWake w after result
  | pc => .wake w pc after

/-- What follows the first waker. -/
def afterFirst : Option Nat → After
  | none => .stop
  | some last => .first last

/-- `last_seq.wrapping_sub(1)`. -/
def lastSeq (last : Nat) : Nat := u32 (last + (2 ^ 32 - 1))

/-- One step of the call; a weak compare-exchange may fail spuriously. -/
def stepFire (s : St) (spurious : Bool) : Option St :=
  match s.pc with
  | .first =>
    if s.reg.state = .empty then some (s.goto (.returned .next))
    else some (s.goto (.firstLock s.reg.state))
  | .firstLock flag =>
    let t := { s with entries := s.reg.queue.length }
    match s.reg.popFirst s.alive flag with
    | (none, r) => some { t with reg := r, pc := .returned .next }
    | (some (w, o), r) =>
      some { t with reg := r, pops := s.pops + 1, pc := .wake w .load (afterFirst o) }
  | .wake w (.wakeByRef result) after => some ((s.ring w).goto (afterWake w after result))
  | .wake w pc after =>
    let (state, pc') := wakeStep (s.waker w).state pc spurious
    some ((s.setState w state).goto (wakeNext w after pc'))
  | .seqCheck w last =>
    if lastSeq last ≤ u32 (s.waker w).seq then some (s.goto (.returned .next))
    else some (s.goto (.again last))
  | .again last =>
    if s.reg.state = .empty then some (s.goto (.returned .next))
    else some (s.goto (.againLock last))
  | .againLock last =>
    match s.reg.popAgain s.alive with
    | (none, r) => some { s with reg := r, pc := .returned .next }
    | (some w, r) =>
      some { s with reg := r, pops := s.pops + 1, pc := .wake w .load (.again last) }
  | .returned _ => none

/-- A step of `fire`, or an action of another thread. -/
inductive Act
  /-- One step of the call. -/
  | fire (spurious : Bool)
  /-- Another thread registers a waker, new or popped before. -/
  | regWaker (w : Nat)
  /-- Another thread pops entries or cleans up: it leaves some of the queue. -/
  | remove (queue : List Nat)
  | setState (w : Nat) (state : WakerState)
  | dropWaker (w : Nat)
  deriving DecidableEq, Repr

/-- `reg_waker`. -/
def St.register (s : St) (w : Nat) : St :=
  { s with
    reg := s.reg.regWaker w
    waker := update s.waker w { s.waker w with seq := s.reg.seq + 1 } }

/-- The last strong reference to the waker `w` is dropped. -/
def St.dropWaker (s : St) (w : Nat) : St :=
  { s with waker := update s.waker w { s.waker w with alive := false } }

/-- One action; `none` if it is not possible now. -/
def step (s : St) : Act → Option St
  | .fire spurious => stepFire s spurious
  | .regWaker w => some (s.register w)
  | .remove queue =>
    if queue.isSublist s.reg.queue then some { s with reg := s.reg.popped queue } else none
  | .setState w state => some (s.setState w state)
  | .dropWaker w => some (s.dropWaker w)

/-- A call of `fire` on any registry, among other threads. -/
def system : System St Act where
  init s := ∃ reg waker, s = .call reg waker
  step := step

/-! ## A call without interference -/

/-- A live waker that waits. -/
def waits (inner : WakerInner) : Bool := inner.alive && decide (inner.state = .waiting)

/-- A live waker that has not committed to waiting. -/
def fresh (inner : WakerInner) : Bool := inner.alive && decide (inner.state = .init)

/-- What `wake` of the live waker `w` adds to the outcome of what follows it. -/
def woke (inner : WakerInner) (w : Nat) (out : WakeResult × List Nat) : WakeResult × List Nat :=
  if inner.state = .waiting then (.woken, [w])
  else (out.1, if inner.state = .init then w :: out.2 else out.2)

/-- The result `fire` should have on a queue, and whom it should wake: every live waker in `Init` up
to the first one that waits, and that one. -/
def reached (waker : Nat → WakerInner) : List Nat → WakeResult × List Nat
  | [] => (.next, [])
  | w :: rest =>
    if (waker w).alive then woke (waker w) w (reached waker rest) else reached waker rest

/-- The result `fire` has, and whom it wakes; `last` is the counter that `pop_first` saw. The loop
stops behind a waker whose number is at least `last_seq`, but the `first` waker is not compared. -/
def fired (last : Nat) (waker : Nat → WakerInner) : Bool → List Nat → WakeResult × List Nat
  | _, [] => (.next, [])
  | first, w :: rest =>
    if (waker w).alive then
      woke (waker w) w
        (if first = false ∧ lastSeq last ≤ u32 (waker w).seq then (.next, [])
        else fired last waker false rest)
    else fired last waker first rest

/-- The steps of the call with no other thread and no spurious failure. -/
abbrev Alone : St → St → Prop := Relation.ReflTransGen fun s t => stepFire s false = some t

section Reached

variable {waker waker' : Nat → WakerInner} {q : List Nat} {w last : Nat} {first : Bool}

theorem waits_eq_false (halive : (waker w).alive = true) :
    waits (waker w) = false ↔ (waker w).state ≠ .waiting := by
  simp [waits, halive]

/-- What follows a waker that does not wait is part of the outcome. -/
theorem woke_inj {inner : WakerInner} {a b : WakeResult × List Nat} (h : inner.state ≠ .waiting) :
    woke inner w a = woke inner w b ↔ a = b := by
  rw [woke, woke, if_neg h, if_neg h, Prod.mk.injEq, Prod.ext_iff]
  split_ifs <;> simp

/-- Dead entries are passed over. -/
theorem fired_dead {dead : List Nat} (hdead : ∀ v ∈ dead, (waker v).alive = false) :
    fired last waker first (dead ++ q) = fired last waker first q := by
  induction dead with
  | nil => rfl
  | cons v rest ih =>
    have hv : (waker v).alive = false := hdead v List.mem_cons_self
    rw [List.cons_append, fired, hv, ih fun u hu => hdead u (List.mem_cons_of_mem v hu)]
    rfl

theorem fired_congr (h : ∀ v ∈ q, waker v = waker' v) :
    fired last waker first q = fired last waker' first q := by
  induction q generalizing first with
  | nil => rfl
  | cons v rest ih =>
    have hrest (first : Bool) : fired last waker first rest = fired last waker' first rest :=
      ih fun u hu => h u (List.mem_cons_of_mem v hu)
    rw [fired, fired, h v List.mem_cons_self, hrest, hrest]

/-- The first waiter is woken. -/
theorem reached_of_waits {pre : List Nat} (post : List Nat) (hw : waits (waker w) = true)
    (hpre : ∀ v ∈ pre, waits (waker v) = false) :
    reached waker (pre ++ w :: post) =
      (.woken, pre.filter (fun v => fresh (waker v)) ++ [w]) := by
  obtain ⟨halive, hstate⟩ : (waker w).alive = true ∧ (waker w).state = .waiting := by
    simpa [waits] using hw
  induction pre with
  | nil => simp [reached, woke, halive, hstate]
  | cons v rest ih =>
    rw [List.cons_append, reached, ih fun u hu => hpre u (List.mem_cons_of_mem v hu)]
    cases hv : (waker v).alive with
    | false => simp [fresh, hv]
    | true =>
      have hnot := (waits_eq_false hv).mp (hpre v List.mem_cons_self)
      by_cases hinit : (waker v).state = .init <;> simp [woke, fresh, hv, hnot, hinit]

/-- If nothing waits, `fire` reaches the end. -/
theorem reached_of_none (hq : ∀ v ∈ q, waits (waker v) = false) :
    reached waker q = (.next, q.filter fun v => fresh (waker v)) := by
  induction q with
  | nil => rfl
  | cons v rest ih =>
    rw [reached, ih fun u hu => hq u (List.mem_cons_of_mem v hu)]
    cases hv : (waker v).alive with
    | false => simp [fresh, hv]
    | true =>
      have hnot := (waits_eq_false hv).mp (hq v List.mem_cons_self)
      by_cases hinit : (waker v).state = .init <;> simp [woke, fresh, hv, hnot, hinit]

/-- The first waiter of a queue that has one. -/
theorem exists_first_waits (hw : w ∈ q) (hwaits : waits (waker w) = true) :
    ∃ pre v post, q = pre ++ v :: post ∧ waits (waker v) = true ∧
      ∀ u ∈ pre, waits (waker u) = false := by
  induction q with
  | nil => cases hw
  | cons x rest ih =>
    by_cases hx : waits (waker x) = true
    · exact ⟨[], x, rest, rfl, hx, nofun⟩
    · have hrest : w ∈ rest := by
        rcases List.mem_cons.mp hw with rfl | hrest
        · exact absurd hwaits hx
        · exact hrest
      obtain ⟨pre, v, post, rfl, hv, hpre⟩ := ih hrest
      refine ⟨x :: pre, v, post, rfl, hv, fun u hu => ?_⟩
      rcases List.mem_cons.mp hu with rfl | hu
      · exact Bool.eq_false_iff.mpr hx
      · exact hpre u hu

/-- When nobody is woken. -/
theorem reached_eq_nothing :
    reached waker q = (.next, []) ↔ ∀ v ∈ q, waits (waker v) = false ∧ fresh (waker v) = false := by
  constructor
  · intro heq
    have hnone : ∀ v ∈ q, waits (waker v) = false := by
      intro v hv
      by_contra hwaits
      obtain ⟨pre, w, post, rfl, hw, hpre⟩ :=
        exists_first_waits hv (Bool.eq_true_of_not_eq_false hwaits)
      rw [reached_of_waits _ hw hpre] at heq
      cases heq
    rw [reached_of_none hnone, Prod.mk.injEq, List.filter_eq_nil_iff] at heq
    exact fun v hv => ⟨hnone v hv, Bool.eq_false_iff.mpr (heq.2 v hv)⟩
  · intro hnothing
    rw [reached_of_none fun v hv => (hnothing v hv).1, Prod.mk.injEq, List.filter_eq_nil_iff]
    exact ⟨rfl, fun v hv => Bool.eq_false_iff.mp (hnothing v hv).2⟩

/-- The loop does not stop too early: behind a live waker whose number is at least `last_seq`, with
nobody waiting up to it, nobody waits or is in `Init`. The `first` live waker is not compared. -/
def Passes (last : Nat) (waker : Nat → WakerInner) (first : Bool) (q : List Nat) : Prop :=
  ∀ pre w post, q = pre ++ w :: post → (first = true → ∃ v ∈ pre, (waker v).alive = true) →
    (waker w).alive = true → (∀ v ∈ pre, waits (waker v) = false) → waits (waker w) = false →
    lastSeq last ≤ u32 (waker w).seq →
      ∀ v ∈ post, waits (waker v) = false ∧ fresh (waker v) = false

/-- `Passes`, one waker at a time. -/
theorem passes_cons : Passes last waker first (w :: q) ↔
    (first = false → (waker w).alive = true → waits (waker w) = false →
      lastSeq last ≤ u32 (waker w).seq →
        ∀ v ∈ q, waits (waker v) = false ∧ fresh (waker v) = false) ∧
    (waits (waker w) = false → Passes last waker (first && !(waker w).alive) q) := by
  constructor
  · intro h
    refine ⟨fun hfirst halive hnot hstop => ?_, fun hnot pre x post hq hfirst => ?_⟩
    · exact h [] w q rfl (by simp [hfirst]) halive nofun hnot hstop
    · rintro halive hpre
      refine h (w :: pre) x post (by rw [hq]; rfl) (fun htrue => ?_) halive ?_
      · cases hw : (waker w).alive with
        | true => exact ⟨w, List.mem_cons_self, hw⟩
        | false =>
          obtain ⟨v, hv, hvalive⟩ := hfirst (by simp [htrue, hw])
          exact ⟨v, List.mem_cons_of_mem w hv, hvalive⟩
      · exact List.forall_mem_cons.mpr ⟨hnot, hpre⟩
  · rintro ⟨hhead, htail⟩ pre x post hq hfirst halive hpre hnot hstop
    cases pre with
    | nil =>
      obtain ⟨rfl, rfl⟩ := List.cons.inj hq
      refine hhead (Bool.eq_false_iff.mpr fun htrue => ?_) halive hnot hstop
      obtain ⟨v, hv, _⟩ := hfirst htrue
      cases hv
    | cons y pre =>
      obtain ⟨rfl, rfl⟩ := List.cons.inj hq
      obtain ⟨hy, hpre⟩ := List.forall_mem_cons.mp hpre
      refine htail hy pre x post rfl (fun htrue => ?_) halive hpre hnot hstop
      obtain ⟨hfirst', hdead⟩ : first = true ∧ (waker w).alive = false := by simpa using htrue
      obtain ⟨v, hv, hvalive⟩ := hfirst hfirst'
      rcases List.mem_cons.mp hv with rfl | hv
      · rw [hdead] at hvalive
        cases hvalive
      · exact ⟨v, hv, hvalive⟩

/-- **The call does what it should if and only if the loop does not stop too early.** -/
theorem fired_eq_reached : fired last waker first q = reached waker q ↔
    Passes last waker first q := by
  induction q generalizing first with
  | nil => exact ⟨fun _ pre w post hq => by simp at hq, fun _ => rfl⟩
  | cons x rest ih =>
    rw [passes_cons, fired, reached]
    cases hx : (waker x).alive with
    | false =>
      have hnot : waits (waker x) = false := by simp [waits, hx]
      simp [hnot, ih]
    | true =>
      by_cases hwaits : (waker x).state = .waiting
      · simp [woke, waits, hx, hwaits]
      have hnot := (waits_eq_false hx).mpr hwaits
      rw [if_pos rfl, if_pos rfl, woke_inj hwaits]
      by_cases hstop : first = false ∧ lastSeq last ≤ u32 (waker x).seq
      · -- the loop stops here, so nothing may be left to do
        rw [if_pos hstop, eq_comm, reached_eq_nothing]
        refine ⟨fun hnothing => ⟨fun _ _ _ _ => hnothing, ?_⟩,
          fun h => h.1 hstop.1 rfl hnot hstop.2⟩
        rintro _ pre w post rfl _ _ _ _ _ v hv
        exact hnothing v (List.mem_append_right pre (List.mem_cons_of_mem w hv))
      · rw [if_neg hstop, ih]
        simp only [hnot, Bool.not_true, Bool.and_false, forall_const]
        exact ⟨fun h => ⟨fun hfirst hseq => absurd ⟨hfirst, hseq⟩ hstop, h⟩, fun h => h.2⟩

end Reached

section Alone

variable {s : St} {w last : Nat} {after : After}

theorem Alone.step {t u : St} (h : Alone s t) (hstep : stepFire t false = some u) : Alone s u :=
  h.tail hstep

/-- What `wake` leaves alone. -/
structure Woke (s : St) (w : Nat) (t : St) : Prop where
  reg : t.reg = s.reg
  other : ∀ v, v ≠ w → t.waker v = s.waker v
  alive : ∀ v, t.alive v = s.alive v
  seq : ∀ v, (t.waker v).seq = (s.waker v).seq

/-- The waker stores a state. -/
theorem Woke.setState {t : St} (h : Woke s w t) (state : WakerState) :
    Woke s w (t.setState w state) where
  reg := h.reg
  other v hv := (update_of_ne hv ..).trans (h.other v hv)
  alive v := (field_update WakerInner.alive (by rfl) v).trans (h.alive v)
  seq v := (field_update WakerInner.seq (by rfl) v).trans (h.seq v)

variable {r : RegistryMulti}

/-- The first pop finds a live waker. -/
theorem stepFire_firstLock {flag : Flags} {o : Option Nat}
    (hpc : s.pc = .firstLock flag) (hpop : s.reg.popFirst s.alive flag = (some (w, o), r)) :
    stepFire s false = some { s with
      reg := r, entries := s.reg.queue.length, pops := s.pops + 1
      pc := .wake w .load (afterFirst o) } := by
  simp only [stepFire, hpc, hpop]

theorem stepFire_firstLock_none {flag : Flags} (hpc : s.pc = .firstLock flag)
    (hpop : s.reg.popFirst s.alive flag = (none, r)) :
    stepFire s false = some { s with
      reg := r, entries := s.reg.queue.length, pc := .returned .next } := by
  simp only [stepFire, hpc, hpop]

theorem stepFire_againLock (hpc : s.pc = .againLock last)
    (hpop : s.reg.popAgain s.alive = (some w, r)) :
    stepFire s false = some { s with
      reg := r, pops := s.pops + 1, pc := .wake w .load (.again last) } := by
  simp only [stepFire, hpc, hpop]

theorem stepFire_againLock_none (hpc : s.pc = .againLock last)
    (hpop : s.reg.popAgain s.alive = (none, r)) :
    stepFire s false = some { s with reg := r, pc := .returned .next } := by
  simp only [stepFire, hpc, hpop]

/-- One step of `wake` that does not ring. -/
theorem stepFire_wake {pc : WakePc} (hpc : s.pc = .wake w pc after)
    (hring : ∀ result, pc ≠ .wakeByRef result) {state : WakerState} {pc' : WakePc}
    (hwake : wakeStep (s.waker w).state pc false = (state, pc')) :
    stepFire s false = some ((s.setState w state).goto (wakeNext w after pc')) := by
  cases pc with
  | wakeByRef result => exact absurd rfl (hring result)
  | load | store | cas | returned result => simp only [stepFire, hpc, hwake]

/-- `wake` of a live waker, by the state it finds. -/
theorem alone_wake (hpc : s.pc = .wake w .load after) :
    ∃ t, Alone s t ∧ Woke s w t ∧
      (((s.waker w).state = .waiting ∧ t.pc = .returned .woken ∧ t.woken = s.woken ++ [w]) ∨
        ((s.waker w).state = .init ∧ t.pc = afterWake w after .next ∧ t.woken = s.woken ++ [w]) ∨
        ((s.waker w).state.isWoken = true ∧ t.pc = afterWake w after .skip ∧
          t.woken = s.woken)) := by
  have hself : Woke s w s := ⟨rfl, fun _ _ => rfl, fun _ => rfl, fun _ => rfl⟩
  have hload := stepFire_wake hpc nofun (rfl : wakeStep (s.waker w).state .load false = _)
  have halone := Alone.step .refl hload
  have hwoke := hself.setState (s.waker w).state
  set t := s.setState w (s.waker w).state with ht
  have hstate : (t.waker w).state = (s.waker w).state := by simp [ht, St.setState]
  rcases wakeBranch_cases (s.waker w).state with ⟨hbranch, hs⟩ | ⟨hbranch, hs⟩ | ⟨hbranch, hs⟩
  · rw [hbranch] at halone
    exact ⟨_, halone, ⟨hwoke.reg, hwoke.other, hwoke.alive, hwoke.seq⟩, .inr (.inr ⟨hs, rfl, rfl⟩)⟩
  · rw [hbranch] at halone
    have hstore := stepFire_wake (s := t.goto (.wake w .store after)) rfl nofun
      (rfl : wakeStep _ .store false = _)
    have hwoke' := hwoke.setState .woken
    refine ⟨_, (halone.step hstore).step rfl, ⟨hwoke'.reg, hwoke'.other, hwoke'.alive, hwoke'.seq⟩,
      .inl ⟨hs, rfl, rfl⟩⟩
  · rw [hbranch] at halone
    have hcas := stepFire_wake (s := t.goto (.wake w .cas after)) rfl nofun
      (show wakeStep (t.waker w).state .cas false = (.woken, .wakeByRef .next) by
        rw [hstate, hs]; rfl)
    have hwoke' := hwoke.setState .woken
    refine ⟨_, (halone.step hcas).step rfl, ⟨hwoke'.reg, hwoke'.other, hwoke'.alive, hwoke'.seq⟩,
      .inr (.inl ⟨hs, rfl, rfl⟩)⟩

/-- What the call has done when it returns with the outcome `out`, having started on the queue
`q`. -/
structure Returns (s : St) (out : WakeResult × List Nat) (q : List Nat) (t : St) : Prop where
  alone : Alone s t
  pc : t.pc = .returned out.1
  woken : t.woken = s.woken ++ out.2
  queue : t.reg.queue ⊆ q

/-- After `wake` of `w`, with the queue `q` left. -/
theorem Returns.wake {s : St} {q : List Nat} (out : WakeResult × List Nat)
    (hpc : s.pc = .wake w .load after) (hqueue : s.reg.queue = q)
    (hafter : ∀ t result, Woke s w t → result ≠ .woken → t.pc = afterWake w after result →
      ∃ u, Returns t out q u) : ∃ u, Returns s (woke (s.waker w) w out) (w :: q) u := by
  obtain ⟨t, halone, hwoke, hcases⟩ := alone_wake hpc
  rcases hcases with ⟨hstate, htpc, htwoken⟩ | ⟨hstate, htpc, htwoken⟩ | ⟨hstate, htpc, htwoken⟩
  · refine ⟨t, halone, ?_, ?_, ?_⟩
    · simp [htpc, woke, hstate]
    · simp [htwoken, woke, hstate]
    · rw [hwoke.reg, hqueue]
      exact List.subset_cons_self w q
  · obtain ⟨u, hu⟩ := hafter t .next hwoke (by rintro ⟨⟩) htpc
    refine ⟨u, halone.trans hu.alone, ?_, ?_, fun v hv => List.mem_cons_of_mem w (hu.queue hv)⟩
    · simp [hu.pc, woke, hstate]
    · simp [hu.woken, htwoken, woke, hstate]
  · have hwaits : (s.waker w).state ≠ .waiting := fun h => by rw [h] at hstate; cases hstate
    have hinit : (s.waker w).state ≠ .init := fun h => by rw [h] at hstate; cases hstate
    obtain ⟨u, hu⟩ := hafter t .skip hwoke (by rintro ⟨⟩) htpc
    refine ⟨u, halone.trans hu.alone, ?_, ?_, fun v hv => List.mem_cons_of_mem w (hu.queue hv)⟩
    · simp [hu.pc, woke, hwaits]
    · simp [hu.woken, htwoken, woke, hwaits, hinit]

variable {q q' : List Nat} {t u : St} {out : WakeResult × List Nat}

/-- Steps before, over dead entries. -/
theorem Returns.of_alone (h : Returns t out q' u) (halone : Alone s t) (hwoken : t.woken = s.woken)
    (hsub : q' ⊆ q) : Returns s out q u where
  alone := halone.trans h.alone
  pc := h.pc
  woken := by rw [h.woken, hwoken]
  queue := fun _ hv => hsub (h.queue hv)

/-- The call returns with one more step. -/
theorem Returns.of_step (hstep : stepFire s false = some t) (hpc : t.pc = .returned .next)
    (hwoken : t.woken = s.woken) (hqueue : t.reg.queue ⊆ q) : Returns s (.next, []) q t :=
  ⟨Alone.step .refl hstep, hpc, by rw [hwoken, List.append_nil], hqueue⟩

/-- `pop_again` loads the flag and takes the lock. -/
theorem alone_againLock (hpc : s.pc = .again last) (hempty : s.reg.state ≠ .empty) :
    Alone s (s.goto (.againLock last)) := by
  have hstep : stepFire s false = some (s.goto (.againLock last)) := by
    simp [stepFire, hpc, hempty]
  exact .step .refl hstep

/-- The comparison of numbers. -/
theorem returns_seqCheck (hpc : s.pc = .seqCheck w last)
    (hagain : ∃ u, Returns (s.goto (.again last)) out s.reg.queue u) :
    ∃ u, Returns s (if lastSeq last ≤ u32 (s.waker w).seq then (.next, []) else out)
      s.reg.queue u := by
  split_ifs with hstop
  · have hstep : stepFire s false = some (s.goto (.returned .next)) := by
      simp [stepFire, hpc, hstop]
    exact ⟨_, .of_step hstep rfl rfl fun v hv => hv⟩
  · have hstep : stepFire s false = some (s.goto (.again last)) := by
      simp [stepFire, hpc, hstop]
    obtain ⟨u, hu⟩ := hagain
    exact ⟨u, hu.of_alone (Alone.step .refl hstep) rfl fun v hv => hv⟩

theorem fired_of_dead {waker : Nat → WakerInner} {first : Bool}
    (hdead : ∀ v ∈ q, (waker v).alive = false) : fired last waker first q = (.next, []) := by
  have hnil : fired last waker first (q ++ []) = fired last waker first [] := fired_dead hdead
  rwa [List.append_nil] at hnil

/-- The loop of `fire`, by induction on the length of the queue. -/
theorem returns_again (hpc : s.pc = .again last) (hmirrors : s.reg.Mirrors)
    (hnodup : s.reg.queue.Nodup) :
    ∃ u, Returns s (fired last s.waker false s.reg.queue) s.reg.queue u := by
  induction hn : s.reg.queue.length using Nat.strong_induction_on generalizing s with
  | _ n ih =>
  by_cases hempty : s.reg.state = .empty
  · have hstep : stepFire s false = some (s.goto (.returned .next)) := by
      simp [stepFire, hpc, hempty]
    rw [hmirrors.queue_eq_nil hempty]
    exact ⟨_, .of_step hstep rfl rfl (by simp [St.goto, hmirrors.queue_eq_nil hempty])⟩
  have halone := alone_againLock hpc hempty
  cases hpop : s.reg.popAgain s.alive with
  | mk o r =>
  cases o with
  | none =>
    obtain ⟨hnil, hdead, _⟩ := RegistryMulti.popAgain_none hpop
    have hstep := stepFire_againLock_none (s := s.goto (.againLock last)) rfl hpop
    rw [fired_of_dead hdead]
    exact ⟨_, (Returns.of_step (q := s.reg.queue) hstep rfl rfl (by simp [hnil])).of_alone halone
      rfl fun v hv => hv⟩
  | some w =>
    obtain ⟨⟨dead, hqueue, hdead⟩, _⟩ := RegistryMulti.popAgain_some hpop
    have halive : (s.waker w).alive = true := RegistryMulti.popAgain_alive hpop
    have hr : r.Mirrors := by
      have hkept : (s.reg.popAgain s.alive).2.Mirrors := hmirrors.popAgain
      rwa [hpop] at hkept
    obtain ⟨hw, hrnodup⟩ : w ∉ r.queue ∧ r.queue.Nodup := by
      rw [hqueue] at hnodup
      exact List.nodup_cons.mp (List.Nodup.of_append_right hnodup)
    -- the popped waker, with the rest of the queue
    let t : St := { s with reg := r, pops := s.pops + 1, pc := .wake w .load (.again last) }
    have hstep : stepFire (s.goto (.againLock last)) false = some t :=
      stepFire_againLock rfl hpop
    obtain ⟨u, hu⟩ := Returns.wake (s := t) (q := r.queue)
      (if lastSeq last ≤ u32 (s.waker w).seq then (.next, [])
        else fired last s.waker false r.queue) rfl rfl (by
      intro u result hwoke hresult hupc
      have hcheck : u.pc = .seqCheck w last := by
        cases result with
        | woken => exact absurd rfl hresult
        | next | skip => exact hupc
      obtain rfl : u.reg = r := hwoke.reg
      have hrest : fired last s.waker false u.reg.queue = fired last u.waker false u.reg.queue :=
        fired_congr fun v hv => (hwoke.other v fun heq => hw (heq ▸ hv)).symm
      have hseq : (u.waker w).seq = (s.waker w).seq := hwoke.seq w
      rw [hrest, ← hseq]
      refine returns_seqCheck hcheck ?_
      refine ih u.reg.queue.length ?_ (s := u.goto (.again last)) rfl hr hrnodup rfl
      rw [← hn, hqueue, List.length_append, List.length_cons]
      omega)
    refine ⟨u, ?_⟩
    rw [hqueue, fired_dead hdead, fired, if_pos halive]
    simp only [true_and]
    exact hu.of_alone (halone.step hstep) rfl (List.subset_append_right dead (w :: r.queue))

end Alone

/-! ## The first real waiter -/

/-- The queue is in the order of the registrations, and the flag byte is right. -/
structure Registered (reg : RegistryMulti) (waker : Nat → WakerInner) : Prop where
  mirrors : reg.Mirrors
  order : reg.queue.Pairwise fun v w => (waker v).seq < (waker w).seq
  counter : ∀ w ∈ reg.queue, (waker w).seq ≤ reg.seq

/-- The outcome of a call without interference. -/
theorem returns_call {reg : RegistryMulti} {waker : Nat → WakerInner} (h : Registered reg waker) :
    ∃ u, Returns (.call reg waker) (fired reg.seq waker true reg.queue) reg.queue u := by
  have hnodup : reg.queue.Nodup := h.order.imp fun {v w} hlt heq => by
    subst heq
    exact Nat.lt_irrefl _ hlt
  -- the flag says empty: `fire` returns at once
  by_cases hempty : reg.state = .empty
  · have hstep : stepFire (.call reg waker) false =
        some ((St.call reg waker).goto (.returned .next)) := by
      simp [stepFire, St.call, hempty]
    rw [h.mirrors.queue_eq_nil hempty]
    exact ⟨_, .of_step hstep rfl rfl (by simp [St.goto, St.call, h.mirrors.queue_eq_nil hempty])⟩
  let s : St := (St.call reg waker).goto (.firstLock reg.state)
  have halone : Alone (.call reg waker) s := by
    have hstep : stepFire (.call reg waker) false = some s := by
      simp [stepFire, St.call, hempty, s]
    exact .step .refl hstep
  cases hpop : reg.popFirst s.alive reg.state with
  | mk o r =>
  cases o with
  | none =>
    obtain ⟨⟨dead, hqueue, _⟩, _, hdead⟩ := RegistryMulti.popFirst_none hpop
    have hstep := stepFire_firstLock_none (s := s) rfl hpop
    have hdead : ∀ v ∈ reg.queue, (waker v).alive = false := by
      intro v hv
      have hflag : reg.state.waker = true := by
        rw [h.mirrors]
        cases hq : reg.queue with
        | nil => rw [hq] at hv; cases hv
        | cons x rest => rfl
      exact hdead hflag v hv
    rw [fired_of_dead hdead]
    refine ⟨_, (Returns.of_step (q := reg.queue) hstep rfl rfl ?_).of_alone halone rfl
      fun v hv => hv⟩
    rw [hqueue]
    exact List.subset_append_right dead r.queue
  | some p =>
    obtain ⟨w, o⟩ := p
    obtain ⟨⟨dead, hqueue, hdead⟩, _, ho⟩ := RegistryMulti.popFirst_some hpop
    have halive : (waker w).alive = true := RegistryMulti.popFirst_alive hpop
    have hr : r.Mirrors := by
      have hkept : (reg.popFirst s.alive reg.state).2.Mirrors := h.mirrors.popFirst
      rwa [hpop] at hkept
    obtain ⟨hw, hrnodup⟩ : w ∉ r.queue ∧ r.queue.Nodup := by
      rw [hqueue] at hnodup
      exact List.nodup_cons.mp (List.Nodup.of_append_right hnodup)
    let t : St := { s with
      reg := r, entries := reg.queue.length, pops := 1, pc := .wake w .load (afterFirst o) }
    have hstep : stepFire s false = some t := stepFire_firstLock rfl hpop
    obtain ⟨u, hu⟩ := Returns.wake (s := t) (q := r.queue)
      (fired reg.seq waker false r.queue) rfl rfl (by
      intro u result hwoke hresult hupc
      have hdone : result.isDone = false := by
        cases result with
        | woken => exact absurd rfl hresult
        | next | skip => rfl
      obtain rfl : u.reg = r := hwoke.reg
      rcases ho with ⟨rfl, hnil⟩ | rfl
      · have hpc : u.pc = .returned .next := by simpa [afterFirst, afterWake, hdone] using hupc
        rw [hnil]
        exact ⟨u, .refl, hpc, by rw [fired, List.append_nil], by simp [hnil]⟩
      · have hpc : u.pc = .again reg.seq := by simpa [afterFirst, afterWake, hdone] using hupc
        -- waking `w` changes no entry that is left
        have hrest : fired reg.seq waker false u.reg.queue =
            fired reg.seq u.waker false u.reg.queue :=
          fired_congr fun v hv => (hwoke.other v fun heq => hw (heq ▸ hv)).symm
        rw [hrest]
        exact returns_again hpc hr hrnodup)
    refine ⟨u, ?_⟩
    have hdead' : ∀ v ∈ dead, (waker v).alive = false := hdead
    rw [hqueue, fired_dead hdead', fired, if_pos halive, if_neg (by simp)]
    exact hu.of_alone (halone.step hstep) rfl (List.subset_append_right dead (w :: r.queue))

/-- The loop does not stop too early: where a live waker that is not the first live one has a 32-bit
number of at least `last_seq`, and nobody up to it waits, nobody behind it waits or is in `Init`. -/
def Unhindered (reg : RegistryMulti) (waker : Nat → WakerInner) : Prop :=
  Passes reg.seq waker true reg.queue

/-- A call that has returned takes no more steps, so there is one outcome. -/
theorem Alone.unique {s t u : St} {a b : WakeResult} (ht : Alone s t) (hu : Alone s u)
    (hta : t.pc = .returned a) (hub : u.pc = .returned b) : t = u := by
  have hend {x y : St} {c : WakeResult} (hx : x.pc = .returned c) (hxy : Alone x y) : x = y := by
    rcases Relation.ReflTransGen.cases_head hxy with rfl | ⟨z, hz, _⟩
    · rfl
    · simp [stepFire, hx] at hz
  have hright : Relator.RightUnique fun s t => stepFire s false = some t := by
    intro x y z hy hz
    exact Option.some.inj (hy.symm.trans hz)
  rcases Relation.ReflTransGen.total_of_right_unique hright ht hu with htu | hut
  · exact hend hta htu
  · exact (hend hub hut).symm

/-- **What `fire` is for, and when it does it.** Without interference the call wakes in queue order
every live waker in `Init` before the first live one that waits, and then that one, with `Woken`; if
nobody waits, it wakes every live waker in `Init`; and with `Next` no waiter is left in the queue.
It does so if and only if the loop does not stop too early. -/
theorem fire_reaches_waiter {reg : RegistryMulti} {waker : Nat → WakerInner}
    (h : Registered reg waker) : Unhindered reg waker ↔
    ∃ t result, Alone (.call reg waker) t ∧ t.pc = .returned result ∧
      (∀ pre w post, reg.queue = pre ++ w :: post → waits (waker w) = true →
        (∀ v ∈ pre, waits (waker v) = false) →
        result = .woken ∧ t.woken = pre.filter (fun v => fresh (waker v)) ++ [w]) ∧
      ((∀ v ∈ reg.queue, waits (waker v) = false) →
        result = .next ∧ t.woken = reg.queue.filter fun v => fresh (waker v)) ∧
      (result = .next → ∀ w ∈ t.reg.queue, waits (waker w) = false) := by
  obtain ⟨t, ht⟩ := returns_call h
  have hwoken : t.woken = (fired reg.seq waker true reg.queue).2 := ht.woken
  rw [Unhindered, ← fired_eq_reached]
  constructor
  · intro heq
    refine ⟨t, _, ht.alone, ht.pc, ?_, ?_, ?_⟩
    · intro pre w post hqueue hw hpre
      rw [hwoken, heq, hqueue, reached_of_waits _ hw hpre]
      exact ⟨rfl, rfl⟩
    · intro hnone
      rw [hwoken, heq, reached_of_none hnone]
      exact ⟨rfl, rfl⟩
    · intro hnext w hw
      by_contra hwaits
      have hwaits : waits (waker w) = true := Bool.eq_true_of_not_eq_false hwaits
      obtain ⟨pre, v, post, hqueue, hv, hpre⟩ := exists_first_waits (ht.queue hw) hwaits
      rw [heq, hqueue, reached_of_waits post hv hpre] at hnext
      cases hnext
  -- a call that runs alone has one end only
  · rintro ⟨t', result, halone, hpc, hfirst, hnone, _⟩
    obtain rfl := halone.unique ht.alone hpc ht.pc
    have hresult : (fired reg.seq waker true reg.queue).1 = result :=
      FirePc.returned.inj (ht.pc.symm.trans hpc)
    by_cases hwaits : ∃ w ∈ reg.queue, waits (waker w) = true
    · obtain ⟨w, hw, hwaits⟩ := hwaits
      obtain ⟨pre, v, post, hqueue, hv, hpre⟩ := exists_first_waits hw hwaits
      have hreached := reached_of_waits post hv hpre
      rw [← hqueue] at hreached
      obtain ⟨rfl, hlist⟩ := hfirst pre v post hqueue hv hpre
      rw [hreached]
      exact Prod.ext hresult (hwoken.symm.trans hlist)
    · have hnot : ∀ v ∈ reg.queue, waits (waker v) = false := fun v hv =>
        Bool.eq_false_iff.mpr fun hwv => hwaits ⟨v, hv, hwv⟩
      obtain ⟨rfl, hlist⟩ := hnone hnot
      rw [reached_of_none hnot]
      exact Prod.ext hresult (hwoken.symm.trans hlist)

/-- `n` steps of the call, or as many as it takes to return. -/
def runAlone : Nat → St → St
  | 0, s => s
  | n + 1, s =>
    match stepFire s false with
    | some t => runAlone n t
    | none => s

theorem alone_runAlone (n : Nat) : ∀ s : St, Alone s (runAlone n s) := by
  induction n with
  | zero => exact fun s => .refl
  | succ n ih =>
    intro s
    rw [runAlone]
    cases hstep : stepFire s false with
    | none => exact .refl
    | some t => exact (Alone.step .refl hstep).trans (ih t)

/-- Two wakers that stay in `Init` and one that waits, registered one after the other: the loop
stops at the second. -/
theorem fire_stops_early :
    ∃ reg waker t, Registered reg waker ∧ Alone (.call reg waker) t ∧ t.pc = .returned .next ∧
      ∃ w ∈ t.reg.queue, waits (waker w) = true := by
  let reg : RegistryMulti := ⟨⟨false, true⟩, [0, 1, 2], [], 3⟩
  let waker : Nat → WakerInner := fun w => ⟨if w = 2 then .waiting else .init, w + 1, true⟩
  have hend : (runAlone 20 (.call reg waker)).pc = .returned .next ∧
      2 ∈ (runAlone 20 (.call reg waker)).reg.queue := by
    decide +kernel
  exact ⟨reg, waker, _, ⟨rfl, by decide, by decide⟩, alone_runAlone 20 _, hend.1, 2, hend.2, rfl⟩

/-- A waker in `Init`, a dead entry and two waiters, registered one after the other: the loop would
stop at the first waiter, but that one ends the call before. -/
theorem fire_reaches_waiter_adjacent :
    ∃ reg waker, Registered reg waker ∧ Unhindered reg waker ∧ reg.queue = [0, 1, 2, 3] ∧
      ∃ t result, Alone (.call reg waker) t ∧ t.pc = .returned result ∧
        (∀ pre w post, reg.queue = pre ++ w :: post → waits (waker w) = true →
          (∀ v ∈ pre, waits (waker v) = false) →
          result = .woken ∧ t.woken = pre.filter (fun v => fresh (waker v)) ++ [w]) ∧
        ((∀ v ∈ reg.queue, waits (waker v) = false) →
          result = .next ∧ t.woken = reg.queue.filter fun v => fresh (waker v)) ∧
        (result = .next → ∀ w ∈ t.reg.queue, waits (waker w) = false) := by
  let reg : RegistryMulti := ⟨⟨false, true⟩, [0, 1, 2, 3], [], 4⟩
  let waker : Nat → WakerInner :=
    fun w => ⟨if w < 2 then .init else .waiting, w + 1, decide (w ≠ 1)⟩
  have hreg : Registered reg waker := ⟨rfl, by decide, by decide⟩
  have hpasses : Unhindered reg waker := fired_eq_reached.mp (by decide)
  exact ⟨reg, waker, hreg, hpasses, rfl, (fire_reaches_waiter hreg).mp hpasses⟩

end Crossfire.Registry.Fire
