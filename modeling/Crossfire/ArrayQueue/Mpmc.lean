import Crossfire.Lib.Interleaving
import Crossfire.Lib.Lap
import Crossfire.Lib.Fifo
import Crossfire.Lib.Cells
import Crossfire.ArrayQueue.Token

/-!
# `ArrayQueue`: a bounded queue for many producers and many consumers

`array_queue.rs` at the granularity of atomic operations and slot accesses. Producers and consumers
look at the stamp of the slot at the tail or the head, and claim the position by compare-exchange
when the stamp admits them. What a consumer claims it may read much later: `start_read` hands out a
token and `read` redeems it.

An agent is one operation in flight: a token stays with the agent it was returned to, and what its
thread does in the meantime is done by other agents.

The history numbers the pushes and the pops by their compare-exchanges. It also keeps for every push
call how many messages it pushed and the largest number of unclaimed messages at any instant of it
(`peak`), and what it returned (`Answer`). Positions and stamps are words of `usize`, of any width
(`Ring`); a capacity that does not leave a bit for the lap cannot be allocated.
-/

set_option autoImplicit false

namespace Crossfire.ArrayQueue.Mpmc

open Lib.Interleaving Lib.Lap Lib.Fifo Lib.Cells Function

/-- Program counter of an operation; the number `k` is that of the position it has read. -/
inductive Pc (V : Type)
  | idle
  /-- `push_with_ptr`, or `try_push_oneshot` (`one`): the load of `tail`. -/
  | load (v : V) (one : Bool)
  /-- `try_push_oneshot`: `check_full`. -/
  | oneHead (v : V) (tail k : Nat)
  /-- `_try_push`: the stamp. -/
  | look (v : V) (one : Bool) (tail k : Nat)
  /-- `_try_push`: the compare-exchange. -/
  | cas (v : V) (one : Bool) (tail k : Nat)
  /-- `push_with_ptr`: `check_full`. -/
  | checkHead (v : V) (tail k : Nat)
  /-- `_try_push`: the value. -/
  | write (v : V) (tail k : Nat)
  /-- `_try_push`: the new stamp. -/
  | publish (v : V) (tail k : Nat)
  /-- `_start_read`: the load of `head`, for `pop` or for a token. -/
  | popLoad (select : Bool)
  /-- `_start_read`: the stamp. -/
  | popLook (select : Bool) (head k : Nat)
  /-- `_start_read`: the compare-exchange. -/
  | popCas (select : Bool) (head k : Nat)
  /-- `_start_read`: the stamp is the head, the load of `tail`. -/
  | popTail (select : Bool) (head k : Nat)
  /-- A token that is not redeemed yet. -/
  | token (t : Token)
  /-- `pop` or `read`: the value. -/
  | read (t : Token)
  /-- `pop` or `read`: the new stamp. -/
  | release (t : Token) (msg : Option V)
  deriving DecidableEq

/-- The queue, its agents and the history. -/
structure St (ι V : Type) where
  head : Nat
  tail : Nat
  value : Nat → Option V
  stamp : Nat → Nat
  pc : ι → Pc V
  pushed : List V
  /-- Number of messages claimed by pops. -/
  claimed : Nat
  returned : List (Nat × Option V)
  /-- The number of messages pushed by the current push call. -/
  claims : ι → Nat
  /-- The largest number of unclaimed messages at any instant of the current push call. -/
  peak : ι → Nat
  answers : List Answer
  /-- For each `None` of `_start_read`, the number of unclaimed messages when it loaded `tail`. -/
  missed : List Nat

/-- A call starts, or agent `i` takes a step of its call. -/
inductive Act (ι V : Type)
  | push (i : ι) (v : V) (one : Bool)
  | pop (i : ι)
  | select (i : ι)
  | redeem (i : ι)
  /-- `choice`: the weak compare-exchange fails spuriously. -/
  | go (i : ι) (choice : Bool)

section Step

variable (r : Ring) {ι V : Type} [DecidableEq ι]

/-- `ArrayQueue::new`. -/
def St.new : St ι V :=
  ⟨0, 0, fun _ => none, fun i => i, fun _ => .idle, [], 0, [], fun _ => 0, fun _ => 0, [], []⟩

/-- Messages pushed and not claimed. -/
def St.unclaimed (s : St ι V) : Nat := s.pushed.length - s.claimed

/-- Agent `i` goes to `pc`. -/
def St.setPc (s : St ι V) (i : ι) (pc : Pc V) : St ι V := { s with pc := update s.pc i pc }

/-- A push call returns. -/
def St.answer (s : St ι V) (i : ι) (result : Option Bool) : St ι V :=
  { s with
    pc := update s.pc i .idle
    answers := ⟨result, s.claims i, s.peak i⟩ :: s.answers }

/-- The compare-exchange on `tail` succeeds. The number of unclaimed messages grows here only. -/
def St.claim (s : St ι V) (i : ι) (v : V) : St ι V :=
  { s with
    tail := r.next s.tail
    pc := update s.pc i (.write v s.tail s.pushed.length)
    pushed := s.pushed ++ [v]
    claims := update s.claims i (s.claims i + 1)
    peak := fun j => max (s.peak j) (s.pushed.length + 1 - s.claimed) }

/-- The token of the message at the head. -/
def St.headToken (s : St ι V) : Token := ⟨r.index s.head, r.addLap s.head, s.claimed⟩

/-- The compare-exchange on `head` succeeds. -/
def St.take (s : St ι V) (i : ι) (select : Bool) : St ι V :=
  { s with
    head := r.next s.head
    pc := update s.pc i (if select then .token (s.headToken r) else .read (s.headToken r))
    claimed := s.claimed + 1 }

/-- One step of an operation. The sums `tail + 1` and `head + 1` do not overflow, by
`Ring.enc_add_one_lt`. -/
def stepGo (s : St ι V) (i : ι) (choice : Bool) : Option (St ι V) :=
  match s.pc i with
  | .idle | .token _ => none
  | .load v one =>
    if one then some (s.setPc i (.oneHead v s.tail s.pushed.length))
    else some (s.setPc i (.look v false s.tail s.pushed.length))
  | .oneHead v tail k =>
    if r.addLap s.head = tail then some (s.answer i (some false))
    else some (s.setPc i (.look v true tail k))
  | .look v one tail k =>
    if tail = s.stamp (r.index tail) then some (s.setPc i (.cas v one tail k))
    else if one then some (s.answer i none)
    else if r.addLap (s.stamp (r.index tail)) = tail + 1 then some (s.setPc i (.checkHead v tail k))
    else some (s.setPc i (.load v false))
  | .cas v one tail _ =>
    if s.tail = tail ∧ choice = false then some (s.claim r i v)
    else if one then some (s.answer i none)
    else some (s.setPc i (.look v false s.tail s.pushed.length))
  | .checkHead v tail _ =>
    if r.addLap s.head = tail then some (s.answer i (some false))
    else some (s.setPc i (.load v false))
  | .write v tail k =>
    some { s with
      value := update s.value (r.index tail) (some v)
      pc := update s.pc i (.publish v tail k) }
  | .publish _ tail _ =>
    some ({ s with
      stamp := update s.stamp (r.index tail) (tail + 1) }.answer i (some true))
  | .popLoad select => some (s.setPc i (.popLook select s.head s.claimed))
  | .popLook select head k =>
    if head + 1 = s.stamp (r.index head) then some (s.setPc i (.popCas select head k))
    else if s.stamp (r.index head) = head then some (s.setPc i (.popTail select head k))
    else some (s.setPc i (.popLoad select))
  | .popCas select head _ =>
    if s.head = head ∧ choice = false then some (s.take r i select)
    else some (s.setPc i (.popLook select s.head s.claimed))
  | .popTail select head _ =>
    if s.tail = head then
      some { s with pc := update s.pc i .idle, missed := s.unclaimed :: s.missed }
    else some (s.setPc i (.popLoad select))
  | .read t => some (s.setPc i (.release t (s.value t.index)))
  | .release t msg =>
    some { s with
      stamp := update s.stamp t.index t.stamp
      pc := update s.pc i .idle
      returned := s.returned ++ [(t.k, msg)] }

/-- One action; `none` if it is not possible now. -/
def step (s : St ι V) : Act ι V → Option (St ι V)
  | .push i v one =>
    if s.pc i matches .idle then
      some { s with
        pc := update s.pc i (.load v one)
        claims := update s.claims i 0
        peak := update s.peak i s.unclaimed }
    else none
  | .pop i => if s.pc i matches .idle then some (s.setPc i (.popLoad false)) else none
  | .select i => if s.pc i matches .idle then some (s.setPc i (.popLoad true)) else none
  | .redeem i =>
    match s.pc i with
    | .token t => some (s.setPc i (.read t))
    | _ => none
  | .go i choice => stepGo r s i choice

/-- An empty queue, and the steps of its agents. -/
def system : System (St ι V) (Act ι V) where
  init s := s = St.new
  step := step r

/-- The number of the tail a producer works with. -/
def Pc.loadedTail : Pc V → Option Nat
  | .oneHead _ _ k | .look _ _ _ k | .cas _ _ _ k | .checkHead _ _ k => some k
  | .idle | .load _ _ | .write _ _ _ | .publish _ _ _ | .popLoad _ | .popLook _ _ _ | .popCas _ _ _
  | .popTail _ _ _ | .token _ | .read _ | .release _ _ => none

/-- The number of the head a consumer works with. -/
def Pc.loadedHead : Pc V → Option Nat
  | .popLook _ _ k | .popCas _ _ k | .popTail _ _ k => some k
  | .idle | .load _ _ | .oneHead _ _ _ | .look _ _ _ _ | .cas _ _ _ _ | .checkHead _ _ _
  | .write _ _ _ | .publish _ _ _ | .popLoad _ | .token _ | .read _ | .release _ _ => none

/-- The comparisons of one position with the other need `lap`. -/
def Pc.slack (lap : Nat) : Pc V → Nat
  | .oneHead _ _ _ | .checkHead _ _ _ | .popTail _ _ _ => lap
  | .idle | .load _ _ | .look _ _ _ _ | .cas _ _ _ _ | .write _ _ _ | .publish _ _ _ | .popLoad _
  | .popLook _ _ _ | .popCas _ _ _ | .token _ | .read _ | .release _ _ => 0

@[simp]
theorem Pc.slack_zero (pc : Pc V) : pc.slack 0 = 0 := by cases pc <;> rfl

/-- When an operation uses the position it has read, that has since moved by less than a full wrap,
and by less than a full wrap less `lap` when it is compared with the other position. -/
def wrapOk (lap : Nat) (s : St ι V) : Act ι V → Prop
  | .go i _ =>
    (∀ k, (s.pc i).loadedTail = some k → s.pushed.length + (s.pc i).slack lap < k + r.period) ∧
    ∀ k, (s.pc i).loadedHead = some k → s.claimed + (s.pc i).slack lap < k + r.period
  | .push _ _ _ | .pop _ | .select _ | .redeem _ => True

/-! ## What an operation can do -/

/-- The message a push has claimed and not yet published. -/
def Pc.writes : Pc V → Option Nat
  | .write _ _ k | .publish _ _ k => some k
  | .idle | .load _ _ | .oneHead _ _ _ | .look _ _ _ _ | .cas _ _ _ _ | .checkHead _ _ _
  | .popLoad _ | .popLook _ _ _ | .popCas _ _ _ | .popTail _ _ _ | .token _ | .read _
  | .release _ _ => none

/-- The message a pop has claimed and not yet released. -/
def Pc.reads : Pc V → Option Nat
  | .token t | .read t | .release t _ => some t.k
  | .idle | .load _ _ | .oneHead _ _ _ | .look _ _ _ _ | .cas _ _ _ _ | .checkHead _ _ _
  | .write _ _ _ | .publish _ _ _ | .popLoad _ | .popLook _ _ _ | .popCas _ _ _
  | .popTail _ _ _ => none

/-- A push in front of its compare-exchange. -/
def Pc.seeks : Pc V → Prop
  | .load _ _ | .oneHead _ _ _ | .look _ _ _ _ | .cas _ _ _ _ | .checkHead _ _ _ => True
  | .idle | .write _ _ _ | .publish _ _ _ | .popLoad _ | .popLook _ _ _ | .popCas _ _ _
  | .popTail _ _ _ | .token _ | .read _ | .release _ _ => False

/-- A pop in front of its compare-exchange. -/
def Pc.popSeeks : Pc V → Prop
  | .popLoad _ | .popLook _ _ _ | .popCas _ _ _ | .popTail _ _ _ => True
  | .idle | .load _ _ | .oneHead _ _ _ | .look _ _ _ _ | .cas _ _ _ _ | .checkHead _ _ _
  | .write _ _ _ | .publish _ _ _ | .token _ | .read _ | .release _ _ => False

/-- The steps of an operation. -/
inductive GoStep (s : St ι V) (i : ι) : St ι V → Prop
  | load (pc : Pc V) (seeks : (s.pc i).seeks)
      (next : (∃ v, pc = .load v false) ∨ (∃ v, pc = .oneHead v s.tail s.pushed.length) ∨
        ∃ v one, pc = .look v one s.tail s.pushed.length) : GoStep s i (s.setPc i pc)
  | keep (tail k : Nat) (pc : Pc V)
      (old : (∃ v, s.pc i = .oneHead v tail k) ∨ ∃ v one, s.pc i = .look v one tail k)
      (next : (∃ v, pc = .look v true tail k) ∨ ∃ v, pc = .checkHead v tail k) :
      GoStep s i (s.setPc i pc)
  | enter (v : V) (one : Bool) (tail k : Nat) (pc : s.pc i = .look v one tail k)
      (stamp : tail = s.stamp (r.index tail)) : GoStep s i (s.setPc i (.cas v one tail k))
  | refuse (v : V) (tail k : Nat) (pc : s.pc i = .oneHead v tail k ∨ s.pc i = .checkHead v tail k)
      (full : r.addLap s.head = tail) : GoStep s i (s.answer i (some false))
  | giveUp (seeks : (s.pc i).seeks) : GoStep s i (s.answer i none)
  | claim (v : V) (one : Bool) (k : Nat) (pc : s.pc i = .cas v one s.tail k) :
      GoStep s i (s.claim r i v)
  | write (v : V) (tail k : Nat) (pc : s.pc i = .write v tail k) :
      GoStep s i { s with
        value := update s.value (r.index tail) (some v)
        pc := update s.pc i (.publish v tail k) }
  | publish (v : V) (tail k : Nat) (pc : s.pc i = .publish v tail k) :
      GoStep s i
        ({ s with stamp := update s.stamp (r.index tail) (tail + 1) }.answer i (some true))
  | popLoad (pc : Pc V) (seeks : (s.pc i).popSeeks)
      (next : (∃ select, pc = .popLoad select) ∨ ∃ select, pc = .popLook select s.head s.claimed) :
      GoStep s i (s.setPc i pc)
  | popEnter (select : Bool) (head k : Nat) (pc : s.pc i = .popLook select head k)
      (stamp : head + 1 = s.stamp (r.index head)) : GoStep s i (s.setPc i (.popCas select head k))
  | popKeep (select : Bool) (head k : Nat) (pc : s.pc i = .popLook select head k) :
      GoStep s i (s.setPc i (.popTail select head k))
  | miss (select : Bool) (k : Nat) (pc : s.pc i = .popTail select s.tail k) :
      GoStep s i { s with pc := update s.pc i .idle, missed := s.unclaimed :: s.missed }
  | take (select : Bool) (k : Nat) (pc : s.pc i = .popCas select s.head k) :
      GoStep s i (s.take r i select)
  | read (t : Token) (pc : s.pc i = .read t) :
      GoStep s i (s.setPc i (.release t (s.value t.index)))
  | release (t : Token) (msg : Option V) (pc : s.pc i = .release t msg) :
      GoStep s i { s with
        stamp := update s.stamp t.index t.stamp
        pc := update s.pc i .idle
        returned := s.returned ++ [(t.k, msg)] }

variable {r} {s t : St ι V} {i : ι} {choice : Bool}

/-- A step is one of `GoStep`. -/
theorem goStep_of_stepGo (h : stepGo r s i choice = some t) : GoStep r s i t := by
  unfold stepGo at h
  cases hpc : s.pc i with
  | idle | token tok => simp [hpc] at h
  | load v one =>
    simp only [hpc] at h
    split_ifs at h
    · cases h
      exact .load _ (by rw [hpc]; trivial) (.inr (.inl ⟨v, rfl⟩))
    · cases h
      exact .load _ (by rw [hpc]; trivial) (.inr (.inr ⟨v, false, rfl⟩))
  | oneHead v tail k =>
    simp only [hpc] at h
    split_ifs at h with hfull
    · cases h
      exact .refuse v tail k (.inl hpc) hfull
    · cases h
      exact .keep tail k _ (.inl ⟨v, hpc⟩) (.inl ⟨v, rfl⟩)
  | look v one tail k =>
    simp only [hpc] at h
    split_ifs at h with hstamp hone hlap
    · cases h
      exact .enter v one tail k hpc hstamp
    · cases h
      exact .giveUp (by rw [hpc]; trivial)
    · cases h
      exact .keep tail k _ (.inr ⟨v, one, hpc⟩) (.inr ⟨v, rfl⟩)
    · cases h
      exact .load _ (by rw [hpc]; trivial) (.inl ⟨v, rfl⟩)
  | cas v one tail k =>
    simp only [hpc] at h
    split_ifs at h with hcas hone
    · obtain ⟨rfl, _⟩ := hcas
      cases h
      exact .claim v one k hpc
    · cases h
      exact .giveUp (by rw [hpc]; trivial)
    · cases h
      exact .load _ (by rw [hpc]; trivial) (.inr (.inr ⟨v, false, rfl⟩))
  | checkHead v tail k =>
    simp only [hpc] at h
    split_ifs at h with hfull
    · cases h
      exact .refuse v tail k (.inr hpc) hfull
    · cases h
      exact .load _ (by rw [hpc]; trivial) (.inl ⟨v, rfl⟩)
  | write v tail k => simp only [hpc] at h; cases h; exact .write v tail k hpc
  | publish v tail k => simp only [hpc] at h; cases h; exact .publish v tail k hpc
  | popLoad select =>
    simp only [hpc] at h
    cases h
    exact .popLoad _ (by rw [hpc]; trivial) (.inr ⟨select, rfl⟩)
  | popLook select head k =>
    simp only [hpc] at h
    split_ifs at h with hstamp hempty
    · cases h
      exact .popEnter select head k hpc hstamp
    · cases h
      exact .popKeep select head k hpc
    · cases h
      exact .popLoad _ (by rw [hpc]; trivial) (.inl ⟨select, rfl⟩)
  | popCas select head k =>
    simp only [hpc] at h
    split_ifs at h with hcas
    · obtain ⟨rfl, _⟩ := hcas
      cases h
      exact .take select k hpc
    · cases h
      exact .popLoad _ (by rw [hpc]; trivial) (.inr ⟨select, rfl⟩)
  | popTail select head k =>
    simp only [hpc] at h
    split_ifs at h with hempty
    · cases h
      exact .miss select k (by rw [hpc, hempty])
    · cases h
      exact .popLoad _ (by rw [hpc]; trivial) (.inl ⟨select, rfl⟩)
  | read tok => simp only [hpc] at h; cases h; exact .read tok hpc
  | release tok msg => simp only [hpc] at h; cases h; exact .release tok msg hpc

end Step

end Crossfire.ArrayQueue.Mpmc
