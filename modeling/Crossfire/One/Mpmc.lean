import Crossfire.Lib.Interleaving
import Crossfire.Lib.Packed
import Crossfire.Lib.Fifo
import Crossfire.Lib.Turnstile

/-!
# `One`: a queue of capacity one for many producers and many consumers

`one.rs` at the granularity of atomic operations and slot accesses. Pushers and poppers claim
positions by compare-exchange on `pos`; after that they wait at the slot of their position until its
16-bit stamp shows that it is their turn, and any number of them can wait at one slot.

An agent is one operation in flight: a token of `_start_read` stays with the agent it was returned
to, and what its thread does in the meantime is done by other agents.

The history numbers the pushes and the pops by their compare-exchanges. A slot serves the push `k`
at stamp `k` and the pop `k` at stamp `k + 1`, so its stamp is a turnstile, and with fewer than
`2 ^ 15` operations in flight the 16 bits tell whose turn it is. `one_isFifo` is the refinement of a
queue of capacity one.
-/

set_option autoImplicit false

namespace Crossfire.One.Mpmc

open Lib.Interleaving Lib.Packed Lib.Fifo Lib.Turnstile Function

/-- What `_start_read` returns, with the number of the pop. -/
structure Token where
  index : Nat
  head : Nat
  k : Nat
  deriving DecidableEq

/-- Program counter of an operation. -/
inductive Pc (V : Type)
  | idle
  /-- `_try_push`: the load of `pos`. -/
  | load (v : V)
  /-- `head == tail` in `pos`. -/
  | cas (v : V) (pos : Nat)
  /-- `Slot::write`: the wait for the stamp. -/
  | await (v : V) (tail k : Nat)
  /-- `Slot::write`: the value. -/
  | write (v : V) (tail k : Nat)
  /-- `Slot::write`: the stamp. -/
  | publish (v : V) (tail k : Nat)
  /-- `_start_read`: the load of `pos`, for `_pop` or for a token. -/
  | popLoad (select : Bool)
  /-- `head != tail` in `pos`. -/
  | popCas (select : Bool) (pos : Nat)
  /-- A token that is not redeemed yet. -/
  | token (t : Token)
  /-- `Slot::read`: the wait for the stamp. -/
  | popAwait (t : Token)
  /-- `Slot::read`: the value. -/
  | read (t : Token)
  /-- `Slot::read`: the stamp. -/
  | release (t : Token) (msg : Option V)

/-- The queue, its agents and the history. -/
structure St (ι V : Type) where
  pos : Nat
  value : Nat → Option V
  stamp : Nat → Nat
  pc : ι → Pc V
  pushed : List V
  /-- Number of positions taken by pops. -/
  claimed : Nat
  returned : List (Nat × Option V)
  /-- For each failed push, the number of unclaimed messages when it read `pos`. -/
  refused : List Nat
  /-- For each `None`, the number of unclaimed messages when `pos` was read. -/
  missed : List Nat
  /-- The stamp of a slot, not reduced. -/
  served : Nat → Nat

/-- A call starts, or somebody takes a step. -/
inductive Act (ι V : Type)
  | push (i : ι) (v : V)
  | pop (i : ι)
  | select (i : ι)
  | redeem (i : ι)
  /-- `choice`: the weak compare-exchange fails spuriously. -/
  | go (i : ι) (choice : Bool)

section Step

variable {ι V : Type} [DecidableEq ι]

/-- `One::new`. -/
def St.new : St ι V :=
  ⟨0, fun _ => none, fun i => i, fun _ => .idle, [], 0, [], [], [], fun i => i⟩

/-- The high half of `pos`. -/
def St.head (s : St ι V) : Nat := high 16 s.pos

/-- The low half of `pos`. -/
def St.tail (s : St ι V) : Nat := low 16 s.pos

/-- Messages pushed and not claimed. -/
def St.unclaimed (s : St ι V) : Nat := s.pushed.length - s.claimed

/-- Agent `i` goes to `pc`. -/
def St.setPc (s : St ι V) (i : ι) (pc : Pc V) : St ι V := { s with pc := update s.pc i pc }

/-- The loop of `_try_push` on the word it has just read. -/
def St.tryPush (s : St ι V) (i : ι) (v : V) : St ι V :=
  if s.head = s.tail then s.setPc i (.cas v s.pos)
  else { s with pc := update s.pc i .idle, refused := s.unclaimed :: s.refused }

/-- The loop of `_start_read` on the word it has just read. -/
def St.startRead (s : St ι V) (i : ι) (select : Bool) : St ι V :=
  if s.head = s.tail then
    { s with pc := update s.pc i .idle, missed := s.unclaimed :: s.missed }
  else s.setPc i (.popCas select s.pos)

/-- One step of an operation. -/
def stepGo (s : St ι V) (i : ι) (choice : Bool) : Option (St ι V) :=
  match s.pc i with
  | .idle | .token _ => none
  | .load v => some (s.tryPush i v)
  | .cas v pos =>
    if s.pos = pos ∧ choice = false then
      some { s with
        pos := pack 16 (high 16 pos) (wrapSucc 16 (low 16 pos))
        pc := update s.pc i (.await v (low 16 pos) s.pushed.length)
        pushed := s.pushed ++ [v] }
    else some (s.tryPush i v)
  | .await v tail k =>
    if s.stamp (tail &&& 1) = tail then some (s.setPc i (.write v tail k)) else some s
  | .write v tail k =>
    some { s with
      value := update s.value (tail &&& 1) (some v)
      pc := update s.pc i (.publish v tail k) }
  | .publish _ tail k =>
    some { s with
      stamp := update s.stamp (tail &&& 1) (wrapSucc 16 tail)
      pc := update s.pc i .idle
      served := update s.served (tail &&& 1) (k + 1) }
  | .popLoad select => some (s.startRead i select)
  | .popCas select pos =>
    if s.pos = pos ∧ choice = false then
      let t : Token := ⟨high 16 pos &&& 1, low 16 pos, s.claimed⟩
      some { s with
        pos := pack 16 (low 16 pos) (low 16 pos)
        pc := update s.pc i (if select then .token t else .popAwait t)
        claimed := s.claimed + 1 }
    else some (s.startRead i select)
  | .popAwait t => if s.stamp t.index = t.head then some (s.setPc i (.read t)) else some s
  | .read t => some (s.setPc i (.release t (s.value t.index)))
  | .release t msg =>
    some { s with
      stamp := update s.stamp t.index (wrapSucc 16 t.head)
      pc := update s.pc i .idle
      returned := s.returned ++ [(t.k, msg)]
      served := update s.served t.index (t.k + 2) }

/-- One action; `none` if it is not possible now. -/
def step (s : St ι V) : Act ι V → Option (St ι V)
  | .push i v => if s.pc i matches .idle then some (s.setPc i (.load v)) else none
  | .pop i => if s.pc i matches .idle then some (s.setPc i (.popLoad false)) else none
  | .select i => if s.pc i matches .idle then some (s.setPc i (.popLoad true)) else none
  | .redeem i =>
    match s.pc i with
    | .token t => some (s.setPc i (.popAwait t))
    | _ => none
  | .go i choice => stepGo s i choice

/-- An empty queue, and the steps of its agents. -/
def system : System (St ι V) (Act ι V) where
  init s := s = St.new
  step := step

/-- The operations in flight, the tokens among them. -/
def St.inFlight [Fintype ι] (s : St ι V) : Nat :=
  (Finset.univ.filter fun i => ¬ (s.pc i matches .idle)).card

/-- Fewer than `2 ^ 15` operations are in flight. -/
def flightOk [Fintype ι] (s : St ι V) (_ : Act ι V) : Prop := s.inFlight < 2 ^ 15

/-! ## What an operation can do -/

/-- The turn an operation has drawn: its slot and the stamp it waits for. -/
def Pc.holds : Pc V → Option (Nat × Nat)
  | .await _ _ k | .write _ _ k | .publish _ _ k => some (k % 2, k)
  | .token t | .popAwait t | .read t | .release t _ => some (t.k % 2, t.k + 1)
  | .idle | .load _ | .cas _ _ | .popLoad _ | .popCas _ _ => none

/-- The steps of an operation. -/
inductive GoStep (s : St ι V) (i : ι) : St ι V → Prop
  | check (v : V) (quiet : (s.pc i).holds = none) (free : s.head = s.tail) :
      GoStep s i (s.setPc i (.cas v s.pos))
  | refuse (quiet : (s.pc i).holds = none) (taken : s.head ≠ s.tail) :
      GoStep s i { s with pc := update s.pc i .idle, refused := s.unclaimed :: s.refused }
  | claim (v : V) (pc : s.pc i = .cas v s.pos) :
      GoStep s i { s with
        pos := pack 16 s.head (wrapSucc 16 s.tail)
        pc := update s.pc i (.await v s.tail s.pushed.length)
        pushed := s.pushed ++ [v] }
  | spin : GoStep s i s
  | turn (v : V) (tail k : Nat) (pc : s.pc i = .await v tail k)
      (stamp : s.stamp (tail &&& 1) = tail) : GoStep s i (s.setPc i (.write v tail k))
  | write (v : V) (tail k : Nat) (pc : s.pc i = .write v tail k) :
      GoStep s i { s with
        value := update s.value (tail &&& 1) (some v)
        pc := update s.pc i (.publish v tail k) }
  | publish (v : V) (tail k : Nat) (pc : s.pc i = .publish v tail k) :
      GoStep s i { s with
        stamp := update s.stamp (tail &&& 1) (wrapSucc 16 tail)
        pc := update s.pc i .idle
        served := update s.served (tail &&& 1) (k + 1) }
  | popCheck (select : Bool) (quiet : (s.pc i).holds = none) (taken : s.head ≠ s.tail) :
      GoStep s i (s.setPc i (.popCas select s.pos))
  | miss (quiet : (s.pc i).holds = none) (free : s.head = s.tail) :
      GoStep s i { s with pc := update s.pc i .idle, missed := s.unclaimed :: s.missed }
  | popClaim (select : Bool) (pc : s.pc i = .popCas select s.pos) (next : Pc V)
      (later : next = .token ⟨s.head &&& 1, s.tail, s.claimed⟩ ∨
        next = .popAwait ⟨s.head &&& 1, s.tail, s.claimed⟩) :
      GoStep s i { s with
        pos := pack 16 s.tail s.tail
        pc := update s.pc i next
        claimed := s.claimed + 1 }
  | popTurn (t : Token) (pc : s.pc i = .popAwait t) (stamp : s.stamp t.index = t.head) :
      GoStep s i (s.setPc i (.read t))
  | read (t : Token) (pc : s.pc i = .read t) :
      GoStep s i (s.setPc i (.release t (s.value t.index)))
  | release (t : Token) (msg : Option V) (pc : s.pc i = .release t msg) :
      GoStep s i { s with
        stamp := update s.stamp t.index (wrapSucc 16 t.head)
        pc := update s.pc i .idle
        returned := s.returned ++ [(t.k, msg)]
        served := update s.served t.index (t.k + 2) }

variable {s t : St ι V} {i : ι} {choice : Bool}

theorem goStep_tryPush (v : V) (hquiet : (s.pc i).holds = none) : GoStep s i (s.tryPush i v) := by
  unfold St.tryPush
  split_ifs with hfree
  · exact .check v hquiet hfree
  · exact .refuse hquiet hfree

theorem goStep_startRead (select : Bool) (hquiet : (s.pc i).holds = none) :
    GoStep s i (s.startRead i select) := by
  unfold St.startRead
  split_ifs with hfree
  · exact .miss hquiet hfree
  · exact .popCheck select hquiet hfree

/-- A step is one of `GoStep`. -/
theorem goStep_of_stepGo (h : stepGo s i choice = some t) : GoStep s i t := by
  unfold stepGo at h
  cases hpc : s.pc i with
  | idle | token tok => simp [hpc] at h
  | load v =>
    simp only [hpc] at h
    cases h
    exact goStep_tryPush v (by rw [hpc]; rfl)
  | cas v pos =>
    simp only [hpc] at h
    split_ifs at h with hcas
    · obtain ⟨rfl, _⟩ := hcas
      cases h
      exact .claim v hpc
    · cases h
      exact goStep_tryPush v (by rw [hpc]; rfl)
  | await v tail k =>
    simp only [hpc] at h
    split_ifs at h with hstamp
    · cases h
      exact .turn v tail k hpc hstamp
    · cases h
      exact .spin
  | write v tail k => simp only [hpc] at h; cases h; exact .write v tail k hpc
  | publish v tail k => simp only [hpc] at h; cases h; exact .publish v tail k hpc
  | popLoad select =>
    simp only [hpc] at h
    cases h
    exact goStep_startRead select (by rw [hpc]; rfl)
  | popCas select pos =>
    simp only [hpc] at h
    split_ifs at h with hcas hselect
    · obtain ⟨rfl, _⟩ := hcas
      cases h
      exact .popClaim select hpc _ (.inl rfl)
    · obtain ⟨rfl, _⟩ := hcas
      cases h
      exact .popClaim select hpc _ (.inr rfl)
    · cases h
      exact goStep_startRead select (by rw [hpc]; rfl)
  | popAwait tok =>
    simp only [hpc] at h
    split_ifs at h with hstamp
    · cases h
      exact .popTurn tok hpc hstamp
    · cases h
      exact .spin
  | read tok => simp only [hpc] at h; cases h; exact .read tok hpc
  | release tok msg => simp only [hpc] at h; cases h; exact .release tok msg hpc

end Step

/-! ## The invariant -/

section Invariant

variable {ι V : Type} {s t : St ι V}

/-- The turn of an operation that is at its slot. -/
def Pc.access : Pc V → Option (Nat × Nat)
  | .write _ _ k | .publish _ _ k => some (k % 2, k)
  | .read t | .release t _ => some (t.k % 2, t.k + 1)
  | .idle | .load _ | .cas _ _ | .await _ _ _ | .popLoad _ | .popCas _ _ | .token _ | .popAwait _ =>
    none

/-- The next turn to draw at a slot. -/
def nextTurn (pushed claimed slot : Nat) : Nat :=
  if slot = claimed % 2 then pushed
  else if slot = (claimed + 1) % 2 then claimed + 1
  else slot

/-- A token is for the slot of its message. -/
structure Token.Fits (claimed : Nat) (t : Token) : Prop where
  k : t.k < claimed
  index : t.index = t.k % 2
  head : t.head = (t.k + 1) % 2 ^ 16

/-- The push `k` has claimed its position. -/
structure PushFits (pushed : List V) (v : V) (tail k : Nat) : Prop where
  lt : k < pushed.length
  tail : tail = k % 2 ^ 16
  value : pushed[k]? = some v

/-- What an operation knows. -/
def Pc.Fits (pushed : List V) (claimed : Nat) (value : Nat → Option V) : Pc V → Prop
  | .idle | .load _ | .popLoad _ => True
  | .cas _ pos => high 16 pos = low 16 pos
  | .popCas _ pos => high 16 pos ≠ low 16 pos
  | .await v tail k | .write v tail k => PushFits pushed v tail k
  | .publish v tail k => PushFits pushed v tail k ∧ value (k % 2) = some v
  | .token t | .popAwait t | .read t => t.Fits claimed
  | .release t msg => t.Fits claimed ∧ msg = pushed[t.k]?

/-- `pos` holds the positions, and the slots follow the turns. -/
structure Inv (s : St ι V) : Prop where
  word : s.pos = pack 16 (s.claimed % 2 ^ 16) (s.pushed.length % 2 ^ 16)
  one : s.pushed.length = s.claimed ∨ s.pushed.length = s.claimed + 1
  pc : ∀ i, (s.pc i).Fits s.pushed s.claimed s.value
  queue : InTurn (fun i => (s.pc i).holds) s.served (nextTurn s.pushed.length s.claimed)
  /-- An operation is at its slot in its turn only. -/
  access : ∀ i p, (s.pc i).access = some p → s.served p.1 = p.2
  stamp : ∀ p, p < 2 → s.stamp p = s.served p % 2 ^ 16
  /-- In the turn of a pop its message is in the slot. -/
  value : ∀ k, s.served (k % 2) = k + 1 → s.value (k % 2) = s.pushed[k]?
  returned : ∀ k, k ∈ s.returned.map Prod.fst ↔ k + 1 < s.served (k % 2)
  delivers : Delivers s.pushed s.returned
  refused : ∀ n ∈ s.refused, n = 1
  missed : ∀ n ∈ s.missed, n = 0

variable {pc : Pc V}

theorem Pc.holds_of_access {p : Nat × Nat} (h : pc.access = some p) : pc.holds = some p := by
  cases pc <;> first | exact h | cases h

theorem Inv.head (h : Inv s) : s.head = s.claimed % 2 ^ 16 := by
  rw [St.head, h.word, high_pack (mod_lt _) (mod_lt _)]

theorem Inv.tail (h : Inv s) : s.tail = s.pushed.length % 2 ^ 16 := by
  rw [St.tail, h.word, low_pack (mod_lt _)]

/-- The two halves are equal when nothing is unclaimed. -/
theorem Inv.head_eq_tail (h : Inv s) : s.head = s.tail ↔ s.pushed.length = s.claimed := by
  rw [h.head, h.tail]
  rcases h.one with hone | hone
  · simp [hone]
  · rw [hone]
    omega

theorem Inv.unclaimed_eq (h : Inv s) (hne : s.head ≠ s.tail) :
    s.pushed.length = s.claimed + 1 :=
  h.one.resolve_left fun hnone => hne (h.head_eq_tail.mpr hnone)

/-- Only what was pushed is served to a pop. -/
theorem Inv.served_le (h : Inv s) {k : Nat} (hk : s.served (k % 2) = k + 1) :
    k < s.pushed.length := by
  have hle := h.queue.le (k % 2)
  rw [hk, nextTurn] at hle
  have hone := h.one
  split_ifs at hle <;> omega

/-- Two operations at one slot are the same. -/
theorem Inv.exclusive (h : Inv s) {i j : ι} {p q q' : Nat} (hi : (s.pc i).access = some (p, q))
    (hj : (s.pc j).access = some (p, q')) : i = j := by
  have hq : q = q' := (h.access i _ hi).symm.trans (h.access j _ hj)
  subst hq
  exact h.queue.unique i j _ (Pc.holds_of_access hi) (Pc.holds_of_access hj)

theorem nextTurn_new (slot : Nat) : nextTurn 0 0 slot = slot := by
  rw [nextTurn]
  split_ifs <;> omega

/-- The empty queue. -/
theorem inv_new : Inv (St.new : St ι V) := by
  refine ⟨by simp [St.new, pack], .inl rfl, fun _ => trivial, ⟨nofun, nofun, ?_, ?_⟩, nofun, ?_, ?_,
    ?_, delivers_nil, nofun, nofun⟩
  · intro g q hle hlt
    have heq := nextTurn_new g
    simp only [St.new, List.length_nil] at hle hlt
    omega
  · intro g
    exact (nextTurn_new g).ge
  · intro p hp
    exact (Nat.mod_eq_of_lt (hp.trans (by decide))).symm
  · intro k hk
    simp only [St.new] at hk
    omega
  · intro k
    simp only [St.new, List.map_nil, List.not_mem_nil, false_iff]
    omega

/-! ## Steps that keep the history -/

theorem Inv.refuse (h : Inv s) (hne : s.head ≠ s.tail) :
    Inv { s with refused := s.unclaimed :: s.refused } := by
  refine { h with refused := fun n hn => ?_ }
  rcases List.mem_cons.mp hn with rfl | hn
  · have hone := h.unclaimed_eq hne
    rw [St.unclaimed]
    omega
  · exact h.refused n hn

theorem Inv.miss (h : Inv s) (heq : s.head = s.tail) :
    Inv { s with missed := s.unclaimed :: s.missed } := by
  refine { h with missed := fun n hn => ?_ }
  rcases List.mem_cons.mp hn with rfl | hn
  · have hnone := h.head_eq_tail.mp heq
    rw [St.unclaimed]
    omega
  · exact h.missed n hn

variable {i : ι}

/-- The stamp shows an operation its turn. -/
theorem Inv.turn [Fintype ι] {p q : Nat} (h : Inv s) (hfew : s.inFlight < 2 ^ 15)
    (hi : (s.pc i).holds = some (p, q)) (hp : p < 2) (hstamp : s.stamp p = q % 2 ^ 16) :
    s.served p = q := by
  refine h.queue.turn (M := 2 ^ 16) ?_ hi (by rw [← h.stamp p hp, hstamp])
  have hsub : (Finset.univ.filter fun j => (s.pc j).holds.isSome).card ≤ s.inFlight := by
    refine Finset.card_le_card fun j hj => ?_
    rw [Finset.mem_filter] at hj ⊢
    refine ⟨hj.1, fun hidle => ?_⟩
    have hsome := hj.2
    cases hpc : s.pc j <;> simp [hpc, Pc.holds] at hidle hsome
  exact hsub.trans_lt (hfew.trans (by decide))

theorem Inv.leave_stamp {p q n : Nat} (h : Inv s) (hn : n = q % 2 ^ 16) :
    ∀ r, r < 2 → update s.stamp p n r = update s.served p q r % 2 ^ 16 := by
  intro r hr
  by_cases hp : r = p
  · subst hp
    rw [update_self, update_self, hn]
  · rw [update_of_ne hp, update_of_ne hp]
    exact h.stamp r hr

variable [DecidableEq ι]

variable {value : Nat → Option V}

theorem access_update {served : Nat → Nat}
    (h : ∀ j, j ≠ i → ∀ p, (s.pc j).access = some p → served p.1 = p.2)
    (hi : ∀ p, pc.access = some p → served p.1 = p.2) :
    ∀ j p, (update s.pc i pc j).access = some p → served p.1 = p.2 :=
  forall_phase (P := fun pc : Pc V => ∀ p, pc.access = some p → served p.1 = p.2) h hi

/-- A step that only loads. -/
theorem Inv.setPc (h : Inv s) (hholds : pc.holds = (s.pc i).holds)
    (hfits : pc.Fits s.pushed s.claimed s.value)
    (haccess : ∀ p, pc.access = some p → s.served p.1 = p.2) : Inv (s.setPc i pc) where
  word := h.word
  one := h.one
  pc := forall_phase (fun j _ => h.pc j) hfits
  queue := by
    show InTurn (fun j => (update s.pc i pc j).holds) s.served _
    rw [map_update_of_eq hholds]
    exact h.queue
  access := access_update (fun j _ => h.access j) haccess
  stamp := h.stamp
  value := h.value
  returned := h.returned
  delivers := h.delivers
  refused := h.refused
  missed := h.missed

/-! ## The compare-exchanges -/

theorem nextTurn_push (n : Nat) :
    nextTurn (n + 1) n = update (nextTurn n n) (n % 2) (nextTurn n n (n % 2) + 1) := by
  funext p
  by_cases hp : p = n % 2
  · subst hp
    simp [nextTurn]
  · rw [update_of_ne hp]
    simp [nextTurn, hp]

/-- A pop hands the slot to the next turn. -/
theorem nextTurn_pop (n : Nat) :
    nextTurn (n + 1) (n + 1) =
      update (nextTurn (n + 1) n) (n % 2) (nextTurn (n + 1) n (n % 2) + 1) := by
  funext p
  by_cases hp : p = n % 2
  · subst hp
    have hne : n % 2 ≠ (n + 1) % 2 := by omega
    have heq : n % 2 = (n + 1 + 1) % 2 := by omega
    simp [nextTurn, hne, ← heq]
  · rw [update_of_ne hp]
    have heq : (n + 1 + 1) % 2 = n % 2 := by omega
    simp only [nextTurn, hp, heq, if_false]

/-- A push moves no other agent. -/
theorem Pc.Fits.push {pushed : List V} {n : Nat}
    (h : pc.Fits pushed n value) (hn : n ≤ pushed.length) (w : V) :
    pc.Fits (pushed ++ [w]) n value := by
  have hpush {v : V} {tail k : Nat} (hk : PushFits pushed v tail k) :
      PushFits (pushed ++ [w]) v tail k :=
    ⟨by rw [List.length_append]; exact Nat.lt_add_right _ hk.lt, hk.tail,
      by rw [List.getElem?_append_left hk.lt, hk.value]⟩
  cases pc with
  | idle | load | popLoad | cas | popCas | token | popAwait | read => exact h
  | await v tail k | write v tail k => exact hpush h
  | publish v tail k => exact ⟨hpush h.1, h.2⟩
  | release t msg => exact ⟨h.1, by rw [List.getElem?_append_left (h.1.k.trans_le hn), h.2]⟩

/-- A pop elsewhere changes nothing. -/
theorem Pc.Fits.pop {pushed : List V} {n : Nat}
    (h : pc.Fits pushed n value) : pc.Fits pushed (n + 1) value := by
  have htoken {t : Token} (ht : t.Fits n) : t.Fits (n + 1) :=
    ⟨ht.k.trans (Nat.lt_succ_self n), ht.index, ht.head⟩
  cases pc with
  | idle | load | popLoad | cas | popCas | await | write | publish => exact h
  | token t | popAwait t | read t => exact htoken h
  | release t msg => exact ⟨htoken h.1, h.2⟩

/-- The compare-exchange of a push. -/
theorem Inv.claim {v : V} (h : Inv s) (hpc : s.pc i = .cas v s.pos) : Inv { s with
      pos := pack 16 s.head (wrapSucc 16 s.tail)
      pc := update s.pc i (.await v s.tail s.pushed.length)
      pushed := s.pushed ++ [v] } := by
  have hfree : s.head = s.tail := by
    have hpci := h.pc i
    rwa [hpc] at hpci
  have hnone := h.head_eq_tail.mp hfree
  have hlen : (s.pushed ++ [v]).length = s.pushed.length + 1 := by simp
  have hholds : (s.pc i).holds = none := by rw [hpc]; rfl
  have hfits : (Pc.await v s.tail s.pushed.length).Fits (s.pushed ++ [v]) s.claimed s.value :=
    ⟨by omega, h.tail, by simp⟩
  refine ⟨?_, .inr (by rw [hlen, hnone]), ?_, ?_, ?_, h.stamp, ?_, h.returned, h.delivers.push v,
    h.refused, h.missed⟩
  · show pack 16 s.head (wrapSucc 16 s.tail) = _
    rw [h.head, h.tail, wrapSucc_mod, hlen]
  · exact forall_phase (fun j _ => (h.pc j).push hnone.ge v) hfits
  · have hdraw := h.queue.draw (g := s.pushed.length % 2) hholds
    have hturn : nextTurn s.pushed.length s.claimed (s.pushed.length % 2) = s.pushed.length := by
      rw [nextTurn, hnone, if_pos rfl]
    show InTurn (fun j => (update s.pc i _ j).holds) s.served
      (nextTurn (s.pushed ++ [v]).length s.claimed)
    rw [map_update Pc.holds, hlen]
    rw [← hnone] at hdraw hturn ⊢
    rw [← nextTurn_push, hturn] at hdraw
    exact hdraw
  · exact access_update (fun j _ => h.access j) nofun
  · intro k hk
    rw [List.getElem?_append_left (h.served_le hk)]
    exact h.value k hk

/-- The compare-exchange of a pop. -/
theorem Inv.popClaim {select : Bool} {next : Pc V} (h : Inv s) (hpc : s.pc i = .popCas select s.pos)
    (hnext : next = .token ⟨s.head &&& 1, s.tail, s.claimed⟩ ∨
      next = .popAwait ⟨s.head &&& 1, s.tail, s.claimed⟩) :
    Inv { s with
      pos := pack 16 s.tail s.tail
      pc := update s.pc i next
      claimed := s.claimed + 1 } := by
  have htaken : s.head ≠ s.tail := by
    have hpci := h.pc i
    rwa [hpc] at hpci
  have hone := h.unclaimed_eq htaken
  have hholds : (s.pc i).holds = none := by rw [hpc]; rfl
  have htoken : Token.Fits (s.claimed + 1) ⟨s.head &&& 1, s.tail, s.claimed⟩ :=
    ⟨Nat.lt_succ_self _, by rw [h.head, mod_and_one (by decide)], by rw [h.tail, hone]⟩
  have hfits : next.Fits s.pushed (s.claimed + 1) s.value := by
    rcases hnext with rfl | rfl <;> exact htoken
  have hnextHolds : next.holds = some (s.claimed % 2, s.claimed + 1) := by
    rcases hnext with rfl | rfl <;> rfl
  have hnextAccess (p : Nat × Nat) : next.access ≠ some p := by
    rcases hnext with rfl | rfl <;> nofun
  refine ⟨?_, .inl hone, ?_, ?_, ?_, h.stamp, h.value, h.returned, h.delivers, h.refused, h.missed⟩
  · show pack 16 s.tail s.tail = _
    rw [h.tail, hone]
  · exact forall_phase (fun j _ => (h.pc j).pop) hfits
  · have hdraw := h.queue.draw (g := s.claimed % 2) hholds
    have hturn : nextTurn s.pushed.length s.claimed (s.claimed % 2) = s.claimed + 1 := by
      rw [nextTurn, if_pos rfl, hone]
    show InTurn (fun j => (update s.pc i _ j).holds) s.served
      (nextTurn s.pushed.length (s.claimed + 1))
    rw [map_update Pc.holds, hnextHolds]
    rw [hone] at hdraw hturn ⊢
    rw [← nextTurn_pop, hturn] at hdraw
    exact hdraw
  · exact access_update (fun j _ => h.access j) fun p hp => absurd hp (hnextAccess p)

/-! ## The slots -/

/-- A push writes its slot. -/
theorem Inv.write {v : V} {tail k : Nat} (h : Inv s) (hpc : s.pc i = .write v tail k) : Inv { s with
      value := update s.value (tail &&& 1) (some v)
      pc := update s.pc i (.publish v tail k) } := by
  have hfits : PushFits s.pushed v tail k := by
    have hpci := h.pc i
    rwa [hpc] at hpci
  have hindex : tail &&& 1 = k % 2 := by rw [hfits.tail, mod_and_one (by decide)]
  have haccess : (s.pc i).access = some (k % 2, k) := by rw [hpc]; rfl
  have hserved : s.served (k % 2) = k := h.access i _ haccess
  have hpublish : (Pc.publish v tail k).Fits s.pushed s.claimed
      (update s.value (k % 2) (some v)) := ⟨hfits, update_self ..⟩
  rw [hindex]
  refine ⟨h.word, h.one, forall_phase (fun j hj => ?_) hpublish, ?_, ?_, h.stamp, ?_, h.returned,
    h.delivers, h.refused, h.missed⟩
  · have hpcj := h.pc j
    cases hpc' : s.pc j with
    | publish v' tail' k' =>
      rw [hpc'] at hpcj
      refine ⟨hpcj.1, ?_⟩
      have haccess' : (s.pc j).access = some (k' % 2, k') := by rw [hpc']; rfl
      have hne : k' % 2 ≠ k % 2 := fun heq =>
        hj (h.exclusive (heq ▸ haccess') haccess)
      exact (update_of_ne hne ..).trans hpcj.2
    | idle | load | popLoad | cas | popCas | await | write | token | popAwait | read | release =>
      rw [hpc'] at hpcj
      exact hpcj
  · show InTurn (fun j => (update s.pc i _ j).holds) s.served _
    rw [map_update_of_eq (by rw [hpc]; rfl)]
    exact h.queue
  · refine access_update (fun j _ => h.access j) ?_
    rintro _ ⟨⟩
    exact hserved
  · intro k' hk'
    have hk'' : s.served (k' % 2) = k' + 1 := hk'
    -- the slot is in the turn of a push
    have hne : k' % 2 ≠ k % 2 := by
      intro heq
      rw [heq, hserved] at hk''
      omega
    exact (update_of_ne hne ..).trans (h.value k' hk'')

/-- An operation leaves its slot: others are at other slots. -/
theorem Inv.leave_access {p q n : Nat} (h : Inv s) (hi : (s.pc i).access = some (p, q)) :
    ∀ j r, (update s.pc i .idle j).access = some r →
      update s.served p n r.1 = r.2 := by
  refine access_update (fun j hj r hr => ?_) nofun
  have hne : r.1 ≠ p := by
    rintro rfl
    exact hj (h.exclusive (q := r.2) hr hi)
  rw [update_of_ne hne]
  exact h.access j r hr

/-- The call that has its turn leaves. -/
theorem Inv.leave_queue {p q : Nat} (h : Inv s) (hi : (s.pc i).access = some (p, q)) :
    InTurn (fun j => (update s.pc i .idle j).holds)
      (update s.served p (q + 1)) (nextTurn s.pushed.length s.claimed) := by
  have hserved : s.served p = q := h.access i _ hi
  rw [map_update Pc.holds, ← hserved]
  exact h.queue.leave (by rw [hserved]; exact Pc.holds_of_access hi)

/-- A push stores its stamp. -/
theorem Inv.publish {v : V} {tail k : Nat} (h : Inv s) (hpc : s.pc i = .publish v tail k) :
    Inv { s with
      stamp := update s.stamp (tail &&& 1) (wrapSucc 16 tail)
      pc := update s.pc i .idle
      served := update s.served (tail &&& 1) (k + 1) } := by
  obtain ⟨hfits, hvalue⟩ : PushFits s.pushed v tail k ∧ s.value (k % 2) = some v := by
    have hpci := h.pc i
    rwa [hpc] at hpci
  have hindex : tail &&& 1 = k % 2 := by rw [hfits.tail, mod_and_one (by decide)]
  have haccess : (s.pc i).access = some (k % 2, k) := by rw [hpc]; rfl
  have hserved : s.served (k % 2) = k := h.access i _ haccess
  rw [hindex]
  refine ⟨h.word, h.one, forall_phase (fun j _ => h.pc j) trivial, h.leave_queue haccess,
    h.leave_access haccess, h.leave_stamp (by rw [hfits.tail, wrapSucc_mod]), ?_, ?_, h.delivers,
    h.refused, h.missed⟩
  · intro k' hk'
    by_cases heq : k' % 2 = k % 2
    · have hk'' : k + 1 = k' + 1 := by simpa [heq] using hk'
      obtain rfl : k = k' := by omega
      exact hvalue.trans hfits.value.symm
    · refine h.value k' ?_
      simpa [heq] using hk'
  · intro k'
    show _ ↔ k' + 1 < update s.served (k % 2) (k + 1) (k' % 2)
    rw [h.returned k']
    by_cases heq : k' % 2 = k % 2
    · rw [heq, update_self, hserved]
      omega
    · rw [update_of_ne heq]

/-- A pop gives its slot back. -/
theorem Inv.release {tok : Token} {msg : Option V} (h : Inv s) (hpc : s.pc i = .release tok msg) :
    Inv { s with
      stamp := update s.stamp tok.index (wrapSucc 16 tok.head)
      pc := update s.pc i .idle
      returned := s.returned ++ [(tok.k, msg)]
      served := update s.served tok.index (tok.k + 2) } := by
  obtain ⟨hfits, hmsg⟩ : tok.Fits s.claimed ∧ msg = s.pushed[tok.k]? := by
    have hpci := h.pc i
    rwa [hpc] at hpci
  have haccess : (s.pc i).access = some (tok.k % 2, tok.k + 1) := by rw [hpc]; rfl
  have hserved : s.served (tok.k % 2) = tok.k + 1 := h.access i _ haccess
  have hk : tok.k < s.pushed.length := by
    have := hfits.k
    rcases h.one with hone | hone <;> omega
  have hnew : tok.k ∉ s.returned.map Prod.fst := by
    rw [h.returned, hserved]
    omega
  rw [hfits.index]
  refine ⟨h.word, h.one, forall_phase (fun j _ => h.pc j) trivial, h.leave_queue haccess,
    h.leave_access haccess, h.leave_stamp (by rw [hfits.head, wrapSucc_mod]), ?_, ?_, ?_, h.refused,
    h.missed⟩
  · intro k' hk'
    by_cases heq : k' % 2 = tok.k % 2
    · -- the slot is in the turn of a push
      have hk'' : tok.k + 2 = k' + 1 := by simpa [heq] using hk'
      omega
    · refine h.value k' ?_
      simpa [heq] using hk'
  · intro k'
    show k' ∈ (s.returned ++ [(tok.k, msg)]).map Prod.fst ↔
      k' + 1 < update s.served (tok.k % 2) (tok.k + 2) (k' % 2)
    rw [List.map_append, List.mem_append, h.returned k', List.map_singleton, List.mem_singleton]
    by_cases heq : k' % 2 = tok.k % 2
    · rw [heq, update_self, hserved]
      omega
    · rw [update_of_ne heq]
      exact ⟨fun hor => hor.resolve_right fun hk' => heq (by rw [hk']), .inl⟩
  · rw [hmsg]
    exact h.delivers.hand hk hnew

/-! ## Runs -/

/-- **A step of a call keeps the invariant.** -/
theorem Inv.go [Fintype ι] {choice : Bool} (h : Inv s) (hfew : s.inFlight < 2 ^ 15)
    (hstep : stepGo s i choice = some t) : Inv t := by
  have hpci := h.pc i
  cases goStep_of_stepGo hstep with
  | check v hquiet hfree => exact h.setPc (by rw [hquiet]; rfl) hfree nofun
  | refuse hquiet htaken =>
    have hidle : Inv (s.setPc i .idle) := h.setPc (by rw [hquiet]; rfl) trivial nofun
    exact hidle.refuse htaken
  | claim v hpc => exact h.claim hpc
  | spin => exact h
  | turn v tail k hpc hstamp =>
    rw [hpc] at hpci
    have hindex : tail &&& 1 = k % 2 := by rw [hpci.tail, mod_and_one (by decide)]
    have hholds : (s.pc i).holds = some (k % 2, k) := by rw [hpc]; rfl
    refine h.setPc hholds.symm hpci ?_
    rintro _ ⟨⟩
    -- fewer than 2^15 calls are in flight: a stamp names one turn only
    refine h.turn hfew hholds (Nat.mod_lt _ (by decide)) ?_
    rw [← hindex, hstamp, hpci.tail]
  | write v tail k hpc => exact h.write hpc
  | publish v tail k hpc => exact h.publish hpc
  | popCheck select hquiet htaken => exact h.setPc (by rw [hquiet]; rfl) htaken nofun
  | miss hquiet hfree =>
    have hidle : Inv (s.setPc i .idle) := h.setPc (by rw [hquiet]; rfl) trivial nofun
    exact hidle.miss hfree
  | popClaim select hpc next hnext => exact h.popClaim hpc hnext
  | popTurn tok hpc hstamp =>
    rw [hpc] at hpci
    have hholds : (s.pc i).holds = some (tok.k % 2, tok.k + 1) := by rw [hpc]; rfl
    refine h.setPc hholds.symm hpci ?_
    rintro _ ⟨⟩
    refine h.turn hfew hholds (Nat.mod_lt _ (by decide)) ?_
    rw [← hpci.index, hstamp, hpci.head]
  | read tok hpc =>
    rw [hpc] at hpci
    have haccess : (s.pc i).access = some (tok.k % 2, tok.k + 1) := by rw [hpc]; rfl
    have hserved : s.served (tok.k % 2) = tok.k + 1 := h.access i _ haccess
    have hvalue : s.value tok.index = s.pushed[tok.k]? := by
      rw [hpci.index]
      exact h.value tok.k hserved
    refine h.setPc (by rw [hpc]; rfl) ⟨hpci, hvalue⟩ ?_
    rintro _ ⟨⟩
    exact hserved
  | release tok msg hpc => exact h.release hpc

/-- **Every action keeps the invariant.** -/
theorem Inv.step [Fintype ι] {a : Act ι V} (h : Inv s) (hok : flightOk s a)
    (hstep : step s a = some t) : Inv t := by
  have hidle {i : ι} (hmatch : (match s.pc i with | .idle => true | _ => false) = true) :
      (s.pc i).holds = none := by
    cases hpc : s.pc i <;> simp [hpc] at hmatch
    rfl
  cases a with
  | push | pop | select =>
    simp only [Mpmc.step] at hstep
    split_ifs at hstep with hmatch
    cases hstep
    exact h.setPc (by rw [hidle hmatch]; rfl) trivial nofun
  | redeem i =>
    simp only [Mpmc.step] at hstep
    have hpci := h.pc i
    cases hpc : s.pc i with
    | token tok =>
      simp only [hpc] at hstep
      cases hstep
      rw [hpc] at hpci
      exact h.setPc (by rw [hpc]; rfl) hpci nofun
    | idle | load | popLoad | cas | popCas | await | write | publish | popAwait | read | release =>
      simp [hpc] at hstep
  | go i choice => exact h.go hok hstep

theorem inv_of_reach [Fintype ι] (h : Reach system flightOk s) : Inv s := by
  refine h.invariant ?_ fun _ _ _ hs hok hstep => hs.step hok hstep
  rintro _ rfl
  exact inv_new

/-! ## The refinement -/

/-- A queue of capacity one. -/
structure IsFifo (s : St ι V) : Prop where
  /-- The pop that claimed position `k` returns the `k`-th value, and is the only one to. -/
  delivers : Delivers s.pushed s.returned
  /-- What was claimed is returned, or the operation that claimed it is still running. -/
  claimed : ∀ k, k < s.claimed → k ∈ s.returned.map Prod.fst ∨
    ∃ i, (s.pc i).holds = some (k % 2, k + 1)
  capacity : s.claimed ≤ s.pushed.length ∧ s.pushed.length ≤ s.claimed + 1
  /-- A slot is written after its previous value was read. -/
  write : ∀ i v tail k, s.pc i = .write v tail k →
    ∀ k', k' < k → k' % 2 = tail &&& 1 → k' ∈ s.returned.map Prod.fst
  /-- A slot is read after it was written. -/
  read : ∀ i t, s.pc i = .read t → s.value t.index = s.pushed[t.k]?
  /-- No two operations are at one slot. -/
  exclusive : ∀ i j p q q', (s.pc i).access = some (p, q) → (s.pc j).access = some (p, q') → i = j
  /-- A push fails when a message is unclaimed, `None` is returned when none is. -/
  refused : ∀ n ∈ s.refused, n = 1
  missed : ∀ n ∈ s.missed, n = 0

/-- **`One` refines a queue of capacity one** while fewer than `2 ^ 15` operations are in flight. -/
theorem one_isFifo [Fintype ι] (h : Reach system flightOk s) : IsFifo s := by
  have hinv := inv_of_reach h
  refine ⟨hinv.delivers, ?_, ?_, ?_, ?_, fun i j p q q' => hinv.exclusive, hinv.refused,
    hinv.missed⟩
  · intro k hk
    rw [hinv.returned k]
    by_cases hserved : k + 1 < s.served (k % 2)
    · exact .inl hserved
    · refine .inr (hinv.queue.covered (k % 2) (k + 1) (by omega) ?_)
      rw [nextTurn]
      have hone := hinv.one
      split_ifs <;> omega
  · rcases hinv.one with hone | hone <;> omega
  · intro i v tail k hpc k' hlt hslot
    have hpci := hinv.pc i
    have haccess : (s.pc i).access = some (k % 2, k) := by rw [hpc]; rfl
    have hserved : s.served (k % 2) = k := hinv.access i _ haccess
    rw [hpc] at hpci
    have hindex : tail &&& 1 = k % 2 := by rw [hpci.tail, mod_and_one (by decide)]
    rw [hindex] at hslot
    rw [hinv.returned k', hslot, hserved]
    omega
  · intro i tok hpc
    have hpci := hinv.pc i
    have haccess : (s.pc i).access = some (tok.k % 2, tok.k + 1) := by rw [hpc]; rfl
    rw [hpc] at hpci
    rw [hpci.index]
    exact hinv.value tok.k (hinv.access i _ haccess)

omit [DecidableEq ι] in
instance [Fintype ι] (s : St ι V) (a : Act ι V) : Decidable (flightOk s a) :=
  inferInstanceAs (Decidable (_ < _))

/-- Two pushers and a popper: the second push claims the other slot while the first message is
still to be written. -/
theorem one_isFifo_stalled : ∃ s : St (Fin 3) Nat, Reach system flightOk s ∧ IsFifo s ∧
    s.returned = [(0, some 7)] ∧ s.pushed = [7, 8] := by
  have hnew : Reach (system (ι := Fin 3) (V := Nat)) flightOk St.new := .init rfl
  obtain ⟨s, hs, hret⟩ := hnew.exists_of_run
    [.push 0 7, .go 0 false, .go 0 false, .pop 1, .go 1 false, .go 1 false, .go 1 false, .push 2 8,
      .go 2 false, .go 2 false, .go 2 false, .go 2 false, .go 2 false, .go 0 false, .go 0 false,
      .go 0 false, .go 1 false, .go 1 false, .go 1 false]
    (fun s => s.returned = [(0, some 7)] ∧ s.pushed = [7, 8]) (by decide +kernel)
  exact ⟨s, hs, one_isFifo hs, hret⟩

end Invariant

end Crossfire.One.Mpmc
