import Crossfire.ArrayQueue.Len
import Crossfire.ArrayQueue.MpmcInvariant
import Crossfire.ArrayQueue.Narrow
import Crossfire.One.Mpmc
import Crossfire.One.Mpsc
import Crossfire.One.Spsc

/-!
# What dropping a queue drops

`Drop` of the six bounded queues, for messages that need it. Each queue works out from its own
position words which slots hold a message: the array queues walk from the index of the head,
wrapping once, `One` and `OneMpsc` take the parity of the head and `OneSp` that of the tail.

`drop_exact` says that after any run that ends with no call in progress and no token outstanding
these are the slots of the messages that were pushed and not returned, each once. The runs are those
of the theorems about the queues, so in the four queues with one consumer no receive starts while a
token is outstanding, and the array queues among them issue tokens only where a `usize` holds the
word that the token carries (`Narrow`). A token that is redeemed after later receives moves the head
back, or forward over a later message, and then a message that was returned is dropped again or one
that was not is leaked (`drop_after_late_token`).
-/

set_option autoImplicit false

namespace Crossfire.ArrayQueue

open Lib.Lap

section Slots

variable (r : Ring)

/-- The index of the `i`-th message, from the index of the head. -/
def dropIndex (hix i : Nat) : Nat := if hix + i < r.cap then hix + i else hix + i - r.cap

/-- The slots that `drop` of an array queue visits. -/
def dropSlots (head tail : Nat) : Option (List Nat) :=
  (dropLen r head tail).map fun len => (List.range len).map (dropIndex r (r.index head))

variable {r} {h t : Nat}

/-- `drop` visits the slots from head to tail. -/
theorem dropSlots_enc (hle : h ≤ t) (hcap : t ≤ h + r.cap) :
    dropSlots r (r.enc h) (r.enc t) = some ((List.range' h (t - h)).map (· % r.cap)) := by
  rw [dropSlots, dropLen_enc hle hcap, Option.map_some, List.range'_eq_map_range, List.map_map,
    Ring.index_enc]
  congr 1
  refine List.map_congr_left fun i hi => ?_
  have hlt := List.mem_range.mp hi
  have hahead : (h + i) % r.cap = _ := index_ahead (Nat.le_add_right h i) (by omega)
  rw [Nat.add_sub_cancel_left] at hahead
  exact hahead.symm

end Slots

end Crossfire.ArrayQueue

namespace Crossfire.Flavor

open Lib.Interleaving Lib.Packed Lib.Lap Lib.Fifo
  Lib.Slots

/-- `Drop` of `One` and `OneMpsc`. -/
def oneDropSlots (head tail : Nat) : List Nat := if head ≠ tail then [head &&& 1] else []

/-- `Drop` of `OneSp`. -/
def oneSpDropSlots (head tail : Nat) : List Nat := if head ≠ tail then [tail &&& 1] else []

/-- The bounded queues; those with a ring have its capacity, and `w` is the width of a `usize`. -/
inductive Kind
  | arrayQueue (r : Ring)
  | arrayQueueMpsc (w : Nat) (r : Ring)
  | arrayQueueSpsc (w : Nat) (r : Ring)
  | one
  | oneMpsc
  | oneSpsc

/-- A queue with its history and what `drop` does in a state. -/
structure Droppable (V : Type) where
  State : Type
  Action : Type
  system : System State Action
  /-- A condition on the steps of a run. -/
  ok : State → Action → Prop
  /-- No call is in progress and no token is outstanding. -/
  quiet : State → Prop
  pushed : State → List V
  returned : State → List (Nat × Option V)
  /-- The number of slots, and what is in them. -/
  size : Nat
  value : State → Nat → Option V
  /-- The slots that `drop` visits; `none` if its arithmetic overflows. -/
  slots : State → Option (List Nat)

section Kinds

variable (ι V : Type) [Fintype ι] [DecidableEq ι]

/-- The agents `ι` are the producers, and the consumers of the queues that have several. -/
def Kind.queue : Kind → Droppable V
  | .arrayQueue r =>
    { State := ArrayQueue.Mpmc.St ι V
      Action := ArrayQueue.Mpmc.Act ι V
      system := ArrayQueue.Mpmc.system r
      ok := ArrayQueue.Mpmc.wrapOk r 0
      quiet := fun s => ∀ i, s.pc i = .idle
      pushed := (·.pushed)
      returned := (·.returned)
      size := r.cap
      value := (·.value)
      slots := fun s => ArrayQueue.dropSlots r s.head s.tail }
  | .arrayQueueMpsc w r =>
    { State := ArrayQueue.Mpsc.St ι V
      Action := ArrayQueue.Mpsc.Act ι V
      system := ArrayQueue.Mpsc.narrowSystem w r
      ok := ArrayQueue.Mpsc.selectOk w r
      quiet := fun s => (∀ i, s.tx i = .idle) ∧ s.rx = .idle ∧ s.tokens = []
      pushed := (·.pushed)
      returned := (·.returned)
      size := r.cap
      value := (·.value)
      slots := fun s => ArrayQueue.dropSlots r (low r.word s.recv) (low r.word s.sender) }
  | .arrayQueueSpsc w r =>
    { State := ArrayQueue.Spsc.St V
      Action := ArrayQueue.Spsc.Act V
      system := ArrayQueue.Spsc.narrowSystem w r
      ok := ArrayQueue.Spsc.selectOk w r
      quiet := fun s => s.tx = .idle ∧ s.rx = .idle ∧ s.tokens = []
      pushed := (·.pushed)
      returned := (·.returned)
      size := r.cap
      value := (·.slot)
      slots := fun s => ArrayQueue.dropSlots r (low r.word s.recv) (low r.word s.sender) }
  | .one =>
    { State := One.Mpmc.St ι V
      Action := One.Mpmc.Act ι V
      system := One.Mpmc.system
      ok := One.Mpmc.flightOk
      quiet := fun s => ∀ i, s.pc i = .idle
      pushed := (·.pushed)
      returned := (·.returned)
      size := 2
      value := (·.value)
      slots := fun s => some (oneDropSlots s.head s.tail) }
  | .oneMpsc =>
    { State := One.Mpsc.St ι V
      Action := One.Mpsc.Act ι V
      system := One.Mpsc.system
      ok := One.Mpsc.tokenOk
      quiet := fun s => (∀ i, s.tx i = .idle) ∧ s.rx = .idle ∧ s.tokens = []
      pushed := (·.pushed)
      returned := (·.returned)
      size := 2
      value := (·.value)
      slots := fun s => some (oneDropSlots s.head s.tail) }
  | .oneSpsc =>
    { State := One.Spsc.St V
      Action := One.Spsc.Act V
      system := One.Spsc.system
      ok := One.Spsc.tokenOk
      quiet := fun s => s.tx = .idle ∧ s.rx = .idle ∧ s.tokens = []
      pushed := (·.pushed)
      returned := (·.returned)
      size := 2
      value := (·.slot)
      slots := fun s => some (oneSpDropSlots s.head s.tail) }

end Kinds

/-! ## The array queues -/

section Arrays

variable {ι V : Type} {r : Ring}

/-- A window of at most `cap` messages in a ring. -/
theorem empties_ring {pushed : List V} {returned : List (Nat × Option V)} {value : Nat → Option V}
    {claimed : Nat} (hreturned : ∀ k, k ∈ returned.map Prod.fst ↔ k < claimed)
    (hlen : claimed ≤ pushed.length ∧ pushed.length ≤ claimed + r.cap)
    (hvalue : ∀ k, claimed ≤ k → k < pushed.length → value (k % r.cap) = pushed[k]?) :
    ∃ slots, ArrayQueue.dropSlots r (r.enc claimed) (r.enc pushed.length) = some slots ∧
      Empties r.cap pushed returned value slots := by
  refine ⟨_, ArrayQueue.dropSlots_enc hlen.1 hlen.2, ?_⟩
  refine empties_window hreturned hlen.1 (fun k => Ring.mod_cap_lt) ?_ hvalue
  intro j k hj hlt hk
  exact mod_ne hlt (by omega)

/-- `ArrayQueue`. -/
theorem mpmc_empties [DecidableEq ι] {s : ArrayQueue.Mpmc.St ι V}
    (h : Reach (ArrayQueue.Mpmc.system r) (ArrayQueue.Mpmc.wrapOk r 0) s)
    (hquiet : ∀ i, s.pc i = .idle) :
    ∃ slots, ArrayQueue.dropSlots r s.head s.tail = some slots ∧
      Empties r.cap s.pushed s.returned s.value slots := by
  have hinv := ArrayQueue.Mpmc.inv_of_reach h
  have hnoWrite (i : ι) : (s.pc i).writes = none := by rw [hquiet i]; rfl
  have hnoRead (i : ι) : (s.pc i).reads = none := by rw [hquiet i]; rfl
  rw [hinv.head, hinv.tail]
  refine empties_ring (fun k => ?_) ⟨hinv.cells.le, hinv.cells.room⟩ fun k hk hlt => ?_
  · rw [hinv.returned k]
    exact and_iff_left fun i hi => nomatch (hnoRead i).symm.trans hi
  · exact (hinv.cells.holding k hk hlt fun i hi => nomatch (hnoWrite i).symm.trans hi).2

/-- `ArrayQueueMpsc`. -/
theorem mpsc_empties [DecidableEq ι] {s : ArrayQueue.Mpsc.St ι V}
    (h : Reach (ArrayQueue.Mpsc.system r)
      (fun s a => ArrayQueue.Mpsc.wrapOk r 0 s a ∧ ArrayQueue.Mpsc.tokenOk s a) s)
    (hquiet : ∀ i, s.tx i = .idle) :
    ∃ slots, ArrayQueue.dropSlots r (low r.word s.recv) (low r.word s.sender) = some slots ∧
      Empties r.cap s.pushed s.returned s.value slots := by
  obtain ⟨hc, tc, hinv⟩ := ArrayQueue.Mpsc.inv_of_reach h
  have hlen := hinv.length_le
  have hnoWrite (i : ι) : (s.tx i).writes = none := by rw [hquiet i]; rfl
  rw [hinv.recv_low, hinv.sender_low, hinv.returned]
  refine empties_ring (fun k => mem_handed) hlen fun k hk hlt => ?_
  exact (hinv.slots.published k hlt (by omega) fun i hi => nomatch (hnoWrite i).symm.trans hi).2

/-- `ArrayQueueSpsc`. -/
theorem spsc_empties {s : ArrayQueue.Spsc.St V}
    (h : Reach (ArrayQueue.Spsc.system r) ArrayQueue.Spsc.tokenOk s) :
    ∃ slots, ArrayQueue.dropSlots r (low r.word s.recv) (low r.word s.sender) = some slots ∧
      Empties r.cap s.pushed s.returned s.slot slots := by
  obtain ⟨hc, tc, hinv⟩ := ArrayQueue.Spsc.inv_of_reach h
  rw [hinv.recv_low, hinv.sender_low, hinv.returned]
  exact empties_ring (fun k => mem_handed) hinv.length_le hinv.slots

end Arrays

/-! ## The queues of capacity one -/

section Ones

variable {ι V : Type}

/-- One message or none, in one of two slots. -/
theorem empties_one {pushed : List V} {returned : List (Nat × Option V)} {value : Nat → Option V}
    {slots : List Nat} (claimed : Nat) (slot : Nat → Nat)
    (hreturned : ∀ k, k ∈ returned.map Prod.fst ↔ k < claimed)
    (hone : pushed.length = claimed ∨ pushed.length = claimed + 1) (hslot : ∀ k, slot k < 2)
    (hnone : pushed.length = claimed → slots = [])
    (hsome : pushed.length = claimed + 1 → slots = [slot claimed] ∧
      value (slot claimed) = pushed[claimed]?) :
    Empties 2 pushed returned value slots := by
  have hwindow : slots = (List.range' claimed (pushed.length - claimed)).map slot := by
    rcases hone with hlen | hlen
    · rw [hnone hlen, hlen, Nat.sub_self]
      rfl
    · rw [(hsome hlen).1, hlen, Nat.add_sub_cancel_left]
      rfl
  rw [hwindow]
  refine empties_window hreturned (by omega) hslot (fun j k _ _ _ => by omega) fun k hk hlt => ?_
  have hlen : pushed.length = claimed + 1 := by omega
  obtain rfl : k = claimed := by omega
  exact (hsome hlen).2

/-- `OneMpmc`. -/
theorem one_empties [Fintype ι] [DecidableEq ι] {s : One.Mpmc.St ι V}
    (h : Reach One.Mpmc.system One.Mpmc.flightOk s) (hquiet : ∀ i, s.pc i = .idle) :
    Empties 2 s.pushed s.returned s.value (oneDropSlots s.head s.tail) := by
  have hinv := One.Mpmc.inv_of_reach h
  -- no ticket is held, so every ticket that was drawn is served
  have hserved (p : Nat) : s.served p = One.Mpmc.nextTurn s.pushed.length s.claimed p := by
    refine Nat.le_antisymm (hinv.queue.le p) (Nat.not_lt.mp fun hlt => ?_)
    obtain ⟨i, hi⟩ := hinv.queue.covered p _ (Nat.le_refl _) hlt
    rw [hquiet i] at hi
    cases hi
  have hone := hinv.one
  refine empties_one s.claimed (· % 2) (fun k => ?_) hone
    (fun k => Nat.mod_lt _ (by decide)) (fun hlen => ?_) fun hlen => ⟨?_, ?_⟩
  · rw [hinv.returned k, hserved, One.Mpmc.nextTurn]
    split_ifs <;> omega
  · rw [oneDropSlots, if_neg (not_not.mpr (hinv.head_eq_tail.mpr hlen))]
  · have hne : s.head ≠ s.tail := fun heq => by
      have := hinv.head_eq_tail.mp heq
      omega
    rw [oneDropSlots, if_pos hne, hinv.head, Lib.Packed.mod_and_one (by decide)]
  · refine hinv.value s.claimed ?_
    rw [hserved, One.Mpmc.nextTurn, if_pos rfl, hlen]

/-- `OneMpsc`. -/
theorem oneMpsc_empties [DecidableEq ι] {s : One.Mpsc.St ι V}
    (h : Reach One.Mpsc.system One.Mpsc.tokenOk s) (hquiet : ∀ i, s.tx i = .idle)
    (hrx : s.rx = .idle) :
    Empties 2 s.pushed s.returned s.value (oneDropSlots s.head s.tail) := by
  have hinv := One.Mpsc.inv_of_reach h
  have hreturned := hinv.rx
  rw [hrx] at hreturned
  have hreturned : s.returned = handed s.pushed s.claimed := hreturned
  have hnoWrite (i : ι) : (s.tx i).writes = none := by rw [hquiet i]; rfl
  rw [hreturned]
  refine empties_one s.claimed (· % 2) (fun k => mem_handed) hinv.one
    (fun k => Nat.mod_lt _ (by decide)) (fun hlen => ?_) fun hlen => ⟨?_, ?_⟩
  · rw [oneDropSlots, if_neg (not_not.mpr (hinv.head_eq_tail.mpr hlen))]
  · have hne : s.head ≠ s.tail := fun heq => by
      have := hinv.head_eq_tail.mp heq
      omega
    rw [oneDropSlots, if_pos hne, hinv.head, Lib.Packed.mod_and_one (by decide)]
  · exact (hinv.slots.published s.claimed (by omega) (by omega)
      fun i hi => nomatch (hnoWrite i).symm.trans hi).2

/-- `OneSpsc`. -/
theorem oneSpsc_empties {s : One.Spsc.St V} (h : Reach One.Spsc.system One.Spsc.tokenOk s)
    (hrx : s.rx = .idle) : Empties 2 s.pushed s.returned s.slot (oneSpDropSlots s.head s.tail) := by
  have hinv := One.Spsc.inv_of_reach h
  have hreturned := hinv.rx
  rw [hrx] at hreturned
  have hreturned : s.returned = handed s.pushed s.claimed := hreturned
  rw [hreturned]
  refine empties_one s.claimed (fun k => (k + 1) % 2) (fun k => mem_handed)
    hinv.one (fun k => Nat.mod_lt _ (by decide)) (fun hlen => ?_) fun hlen => ⟨?_, hinv.slot hlen⟩
  · rw [oneSpDropSlots, if_neg (not_not.mpr (hinv.head_eq_tail.mpr hlen))]
  · have hne : s.head ≠ s.tail := fun heq => by
      have := hinv.head_eq_tail.mp heq
      omega
    rw [oneSpDropSlots, if_pos hne, hinv.tail, Lib.Packed.mod_and_one (by decide), hlen]

end Ones

/-! ## All six -/

section All

variable {ι V : Type} [Fintype ι] [DecidableEq ι]

/-- **Dropping a queue drops exactly what is left in it.** -/
theorem drop_exact (k : Kind) (s : (k.queue ι V).State)
    (h : Reach (k.queue ι V).system (k.queue ι V).ok s) (hquiet : (k.queue ι V).quiet s) :
    ∃ slots, (k.queue ι V).slots s = some slots ∧
      Empties (k.queue ι V).size ((k.queue ι V).pushed s) ((k.queue ι V).returned s)
        ((k.queue ι V).value s) slots := by
  cases k with
  | arrayQueue r => exact mpmc_empties h hquiet
  | arrayQueueMpsc w r => exact mpsc_empties (ArrayQueue.Mpsc.reach_of_narrow h) hquiet.1
  | arrayQueueSpsc w r => exact spsc_empties (ArrayQueue.Spsc.reach_of_narrow h)
  | one => exact ⟨_, rfl, one_empties h hquiet⟩
  | oneMpsc => exact ⟨_, rfl, oneMpsc_empties h hquiet.1 hquiet.2.1⟩
  | oneSpsc => exact ⟨_, rfl, oneSpsc_empties h hquiet.2.1⟩

end All

section Runs

/-- `ArrayQueueSpsc` of capacity two, on a machine of 64 bits. -/
abbrev spscTwo : Kind := .arrayQueueSpsc 64 ArrayQueue.ringTwo

/-- Three messages in two slots, the first received by a token: the other two are dropped, the last
one from the slot of the first. -/
theorem drop_exact_wrapped : ∃ s : (spscTwo.queue Unit Nat).State,
    Reach (spscTwo.queue Unit Nat).system (spscTwo.queue Unit Nat).ok s ∧
      (spscTwo.queue Unit Nat).quiet s ∧
      (∃ slots, (spscTwo.queue Unit Nat).slots s = some slots ∧
        Empties (spscTwo.queue Unit Nat).size ((spscTwo.queue Unit Nat).pushed s)
          ((spscTwo.queue Unit Nat).returned s) ((spscTwo.queue Unit Nat).value s) slots) ∧
      (spscTwo.queue Unit Nat).slots s = some [1, 0] := by
  have hnew : Reach (ArrayQueue.Spsc.narrowSystem (V := Nat) 64 ArrayQueue.ringTwo)
      (ArrayQueue.Spsc.selectOk 64 ArrayQueue.ringTwo) ArrayQueue.Spsc.St.new := .init rfl
  obtain ⟨s, hs, hquiet, hslots⟩ := hnew.exists_of_run
    [.push 7, .goTx, .goTx, .goTx, .push 8, .goTx, .goTx, .goTx, .start .select, .goRx, .goRx,
      .redeem ⟨0, 4 * 2 ^ 32 + 1, 0⟩, .goRx, .goRx, .push 9, .goTx, .goTx, .goTx, .goTx]
    (fun s => (s.tx = .idle ∧ s.rx = .idle ∧ s.tokens = []) ∧
      ArrayQueue.dropSlots ArrayQueue.ringTwo (low 32 s.recv) (low 32 s.sender) = some [1, 0])
    (by decide +kernel)
  exact ⟨s, hs, hquiet, drop_exact spscTwo s hs hquiet, hslots⟩

/-- A token is redeemed after later receives. In `ArrayQueueSpsc` two messages are pushed, a token
is issued and both are received before it is redeemed: the second one is dropped although it was
returned. In `OneSpsc` a message is pushed, received and followed by another one while its token is
outstanding: the other one is not dropped. -/
theorem drop_after_late_token :
    (∃ s : (spscTwo.queue Unit Nat).State,
      Reachable (spscTwo.queue Unit Nat).system s ∧ (spscTwo.queue Unit Nat).quiet s ∧
        (spscTwo.queue Unit Nat).returned s = [(0, some 7), (1, some 8), (0, some 7)] ∧
        (spscTwo.queue Unit Nat).slots s = some [1] ∧
        (spscTwo.queue Unit Nat).value s 1 = some 8) ∧
    ∃ s : (Kind.oneSpsc.queue Unit Nat).State,
      Reachable (Kind.oneSpsc.queue Unit Nat).system s ∧ (Kind.oneSpsc.queue Unit Nat).quiet s ∧
        (Kind.oneSpsc.queue Unit Nat).pushed s = [7, 8] ∧
        (Kind.oneSpsc.queue Unit Nat).returned s = [(0, some 7), (0, some 7)] ∧
        (Kind.oneSpsc.queue Unit Nat).slots s = some [] := by
  refine ⟨?_, ?_⟩
  · have hnew : Reachable (ArrayQueue.Spsc.narrowSystem (V := Nat) 64 ArrayQueue.ringTwo)
        ArrayQueue.Spsc.St.new := .init rfl
    obtain ⟨s, hs, hend⟩ := hnew.exists_of_run
      [.push 7, .goTx, .goTx, .goTx, .push 8, .goTx, .goTx, .goTx, .start .select, .goRx, .goRx,
        .start .pop, .goRx, .goRx, .goRx, .goRx, .start .pop, .goRx, .goRx, .goRx,
        .redeem ⟨0, 4 * 2 ^ 32 + 1, 0⟩, .goRx, .goRx]
      (fun s => (s.tx = .idle ∧ s.rx = .idle ∧ s.tokens = []) ∧
        s.returned = [(0, some 7), (1, some 8), (0, some 7)] ∧
        ArrayQueue.dropSlots ArrayQueue.ringTwo (low 32 s.recv) (low 32 s.sender) = some [1] ∧
        s.slot 1 = some 8) (by decide +kernel)
    exact ⟨s, hs, hend⟩
  · have hnew : Reachable (One.Spsc.system (V := Nat)) One.Spsc.St.new := .init rfl
    obtain ⟨s, hs, hend⟩ := hnew.exists_of_run
      [.push 7, .goTx, .goTx, .goTx, .select, .goRx, .pop, .goRx, .goRx, .goRx,
        .push 8, .goTx, .goTx, .goTx, .redeem ⟨1, 0, 1⟩, .goRx, .goRx]
      (fun s => (s.tx = .idle ∧ s.rx = .idle ∧ s.tokens = []) ∧ s.pushed = [7, 8] ∧
        s.returned = [(0, some 7), (0, some 7)] ∧ some (oneSpDropSlots s.head s.tail) = some [])
      (by decide +kernel)
    exact ⟨s, hs, hend⟩

end Runs

end Crossfire.Flavor
