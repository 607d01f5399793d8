import Crossfire.SegQueue.Reclaim
import Crossfire.SegQueue.Refines

/-!
# `IntoIter` and `Drop` of a `SegQueue`

The owner of a queue that nobody uses any more takes messages out with `next`, as often as it likes,
and drops the queue. Both walk along the blocks: `next` frees a block together with its last
message, `drop` when it comes to the index after that message, and at the end it frees the block of
the tail. An access to a null pointer or to a freed block, a value that is not there and a failed
assertion have no result here.

`drain_exact`: the walk has a result. The messages that come out are those that were pushed and not
returned, in order, and every installed block that is not freed yet is freed once.
-/

set_option autoImplicit false

namespace Crossfire.SegQueue

open Lib.Interleaving Function
open Lib.Fifo

/-! ## The owner's walk -/

/-- A queue with one owner, and what the owner has done to it. -/
structure Owned (V : Type) where
  head : Nat
  tail : Nat
  block : Option Nat
  blocks : Nat → Block V
  /-- The values moved out or dropped. -/
  taken : List V
  /-- The blocks deallocated. -/
  freed : List Nat

section Walk

variable {V : Type}

/-- The value of a slot leaves the queue. -/
def Owned.taking (o : Owned V) (b offset : Nat) (v : V) : Owned V :=
  let slot := (o.blocks b).slot offset
  { o with
    blocks := update o.blocks b ((o.blocks b).setSlot offset { slot with value := none })
    taken := o.taken ++ [v] }

/-- Block `b` is freed. -/
def Owned.freeing (o : Owned V) (b : Nat) : Owned V :=
  { o with
    blocks := update o.blocks b { o.blocks b with freed := true }
    freed := o.freed ++ [b] }

/-- `slot.value.get().read()` or `assume_init_drop()`. -/
def Owned.take (o : Owned V) (b offset : Nat) : Option (V × Owned V) :=
  if (o.blocks b).freed then none
  else ((o.blocks b).slot offset).value.map fun v => (v, o.taking b offset v)

/-- The load of `next` and `drop(Box::from_raw(block))`. -/
def Owned.free (o : Owned V) (b : Nat) : Option (Option Nat × Owned V) :=
  if (o.blocks b).freed then none else some ((o.blocks b).next, o.freeing b)

/-- One round of the loop of `drop`. -/
def dropRound (o : Owned V) : Option (Owned V) :=
  o.block.bind fun b =>
    let offset := offsetOf o.head
    if offset < blockCap then
      (o.take b offset).map fun p => { p.2 with head := advance o.head }
    else
      (o.free b).map fun p => { p.2 with block := p.1, head := advance o.head }

/-- The loop of `drop`, at most `fuel` rounds. -/
def dropLoop : Nat → Owned V → Option (Owned V)
  | 0, _ => none
  | fuel + 1, o => if o.head = o.tail then some o else (dropRound o).bind (dropLoop fuel)

/-- `drop`. -/
def Owned.drop (fuel : Nat) (o : Owned V) : Option (Owned V) :=
  (dropLoop fuel { o with head := clearNext o.head, tail := clearNext o.tail }).bind fun o =>
    match o.block with
    | none => some o
    | some b => (o.free b).map Prod.snd

/-- `IntoIter::next`. -/
def Owned.next (o : Owned V) : Option (Option V × Owned V) :=
  if o.head / 2 = o.tail / 2 then some (none, o)
  else
    o.block.bind fun b =>
      let offset := offsetOf o.head
      (o.take b offset).bind fun p =>
        if offset + 1 = blockCap then
          let newHead := advance (advance o.head)
          (p.2.free b).bind fun q =>
            if offsetOf newHead = 0 then some (some p.1, { q.2 with block := q.1, head := newHead })
            else none
        else some (some p.1, { p.2 with head := advance o.head })

/-- The answers of `n` calls of `next`. -/
def Owned.nexts : Nat → Owned V → Option (List (Option V) × Owned V)
  | 0, o => some ([], o)
  | n + 1, o => o.next.bind fun p => (Owned.nexts n p.2).map fun q => (p.1 :: q.1, q.2)

/-- The queue as its last owner has it. -/
def St.owned {ι : Type} (s : St ι V) : Owned V :=
  ⟨s.headIndex, s.tailIndex, s.headBlock, s.blocks, [], []⟩

end Walk

/-! ## What is left during the walk -/

section Rest

variable {V : Type} {pushed : List V} {c k : Nat} {o : Owned V}

/-- The walk began at message `c` and has come to message `k`. -/
structure Rest (pushed : List V) (c k : Nat) (o : Owned V) : Prop where
  start : c ≤ k
  le : k ≤ pushed.length
  bound : pushed.length ≤ 2 ^ 57
  head : o.head / 2 = rank k
  tail : o.tail / 2 = rank pushed.length
  block : o.block = some (k / 31)
  value : ∀ j, k ≤ j → j < pushed.length →
    ((o.blocks (j / 31)).slot (j % 31)).value = pushed[j]?
  next : ∀ b, k / 31 ≤ b → b < pushed.length / 31 → (o.blocks b).next = some (b + 1)
  live : ∀ b, k / 31 ≤ b → (o.blocks b).freed = false
  taken : o.taken = (pushed.take k).drop c
  freed : o.freed = List.range' (c / 31) (k / 31 - c / 31)

theorem Rest.offset (h : Rest pushed c k o) : offsetOf o.head = k % 31 := by
  rw [offsetOf_eq, h.head, rank_mod]

variable {v : V}

theorem Rest.take (h : Rest pushed c k o) (hv : pushed[k]? = some v) :
    o.take (k / 31) (k % 31) = some (v, o.taking (k / 31) (k % 31) v) := by
  have hlt := (List.getElem?_eq_some_iff.mp hv).1
  rw [Owned.take, h.live _ (Nat.le_refl _), if_neg Bool.false_ne_true,
    h.value k (Nat.le_refl _) hlt, hv]
  rfl

theorem taken_succ (hv : pushed[k]? = some v) (hc : c ≤ k) :
    (pushed.take (k + 1)).drop c = (pushed.take k).drop c ++ [v] := by
  rw [List.take_add_one, hv, Option.toList_some, List.drop_append_of_le_length]
  rw [List.length_take]
  have := (List.getElem?_eq_some_iff.mp hv).1
  omega

section Fields

variable {b offset : Nat} {v : V}

theorem taking_of_ne {n : Nat} (hn : n ≠ b) : (o.taking b offset v).blocks n = o.blocks n :=
  update_of_ne hn ..

theorem taking_self : (o.taking b offset v).blocks b =
    (o.blocks b).setSlot offset { (o.blocks b).slot offset with value := none } :=
  update_self ..

theorem taking_next (n : Nat) : ((o.taking b offset v).blocks n).next = (o.blocks n).next := by
  by_cases hn : n = b
  · rw [hn, taking_self]
    rfl
  · rw [taking_of_ne hn]

theorem taking_freed (n : Nat) : ((o.taking b offset v).blocks n).freed = (o.blocks n).freed := by
  by_cases hn : n = b
  · rw [hn, taking_self]
    rfl
  · rw [taking_of_ne hn]

theorem taking_slot {n m : Nat} (hne : n ≠ b ∨ m ≠ offset) :
    ((o.taking b offset v).blocks n).slot m = (o.blocks n).slot m := by
  by_cases hn : n = b
  · subst hn
    rw [taking_self]
    exact update_of_ne (hne.resolve_left (· rfl)) ..
  · rw [taking_of_ne hn]

theorem freeing_of_ne {n : Nat} (hn : n ≠ b) : (o.freeing b).blocks n = o.blocks n :=
  update_of_ne hn ..

end Fields

theorem Rest.value_taking (h : Rest pushed c k o) (v : V) {j : Nat} (hj : k + 1 ≤ j)
    (hlt : j < pushed.length) :
    (((o.taking (k / 31) (k % 31) v).blocks (j / 31)).slot (j % 31)).value = pushed[j]? := by
  rw [taking_slot (by omega)]
  exact h.value j (by omega) hlt

theorem Rest.head_lt (h : Rest pushed c k o) : o.head / 2 < 2 ^ 59 := by
  have := rank_le h.le
  have := rank_bound h.bound
  have := h.head
  omega

/-- The next message has come out, and its block has more. -/
theorem Rest.next_in (h : Rest pushed c k o) (hv : pushed[k]? = some v) (hin : k % 31 ≠ 30) :
    Rest pushed c (k + 1) { o.taking (k / 31) (k % 31) v with head := advance o.head } := by
  have hblock : (k + 1) / 31 = k / 31 := by omega
  have hhead := h.head_lt
  have hlt := (List.getElem?_eq_some_iff.mp hv).1
  refine ⟨by have := h.start; omega, hlt, h.bound, ?_, h.tail, ?_,
    fun j hj hlt => h.value_taking v hj hlt, fun b hb hlt => ?_, fun b hb => ?_, ?_, ?_⟩
  · show advance o.head / 2 = rank (k + 1)
    rw [advance_eq (by omega), rank_succ hin, ← h.head]
    omega
  · rw [hblock]
    exact h.block
  · show ((o.taking _ _ v).blocks b).next = _
    rw [taking_next]
    exact h.next b (hblock ▸ hb) hlt
  · show ((o.taking _ _ v).blocks b).freed = _
    rw [taking_freed]
    exact h.live b (hblock ▸ hb)
  · rw [taken_succ hv h.start, ← h.taken]
    rfl
  · rw [hblock]
    exact h.freed

/-- The last message of a block has come out, and the block is freed. -/
theorem Rest.next_end (h : Rest pushed c k o) (hv : pushed[k]? = some v) (hend : k % 31 = 30) :
    Rest pushed c (k + 1)
      { (o.taking (k / 31) (k % 31) v).freeing (k / 31) with
        block := some (k / 31 + 1), head := advance (advance o.head) } := by
  have hblock : (k + 1) / 31 = k / 31 + 1 := by omega
  have hhead := h.head_lt
  have hlt := (List.getElem?_eq_some_iff.mp hv).1
  have hc := h.start
  have hadvance : advance o.head = o.head + 2 := advance_eq (by omega)
  refine ⟨by omega, hlt, h.bound, ?_, h.tail, by rw [hblock], fun j hj hlt => ?_,
    fun b hb hlt => ?_, fun b hb => ?_, ?_, ?_⟩
  · show advance (advance o.head) / 2 = rank (k + 1)
    rw [hadvance, advance_eq (by omega), rank_succ_end hend, ← h.head]
    omega
  · show (((o.taking _ _ v).freeing (k / 31)).blocks (j / 31) |>.slot (j % 31)).value = _
    rw [freeing_of_ne (by omega)]
    exact h.value_taking v hj hlt
  · show (((o.taking _ _ v).freeing (k / 31)).blocks b).next = _
    rw [freeing_of_ne (by omega), taking_next]
    exact h.next b (by omega) hlt
  · show (((o.taking _ _ v).freeing (k / 31)).blocks b).freed = _
    rw [freeing_of_ne (by omega), taking_freed]
    exact h.live b (by omega)
  · rw [taken_succ hv hc, ← h.taken]
    rfl
  · show o.freed ++ [k / 31] = _
    rw [h.freed, hblock, show k / 31 + 1 - c / 31 = (k / 31 - c / 31) + 1 by omega,
      List.range'_1_concat]
    congr 2
    omega

/-- The block of a message that comes out can be freed if it has a successor. -/
theorem Rest.free_end (h : Rest pushed c k o) (hv : pushed[k]? = some v) (hend : k % 31 = 30) :
    (o.taking (k / 31) (k % 31) v).free (k / 31) =
      some (some (k / 31 + 1), (o.taking (k / 31) (k % 31) v).freeing (k / 31)) := by
  have hlt := (List.getElem?_eq_some_iff.mp hv).1
  rw [Owned.free, taking_freed, h.live _ (Nat.le_refl _), if_neg Bool.false_ne_true, taking_next,
    h.next _ (Nat.le_refl _) (by omega)]

/-! ## `next` -/

theorem Rest.next_eq_none (h : Rest pushed c k o) (hk : k = pushed.length) :
    o.next = some (none, o) := by
  rw [Owned.next, if_pos (by rw [h.head, h.tail, hk])]

/-- `next` takes the next message. -/
theorem Rest.next_eq_some (h : Rest pushed c k o) (hv : pushed[k]? = some v) :
    ∃ o', o.next = some (some v, o') ∧ Rest pushed c (k + 1) o' := by
  have hlt := (List.getElem?_eq_some_iff.mp hv).1
  have hne : o.head / 2 ≠ o.tail / 2 := by
    rw [h.head, h.tail]
    exact (rank_lt hlt).ne
  rw [Owned.next, if_neg hne, h.block]
  simp only [Option.bind_some, h.offset, h.take hv]
  by_cases hend : k % 31 = 30
  · have hrest := h.next_end hv hend
    have hzero : offsetOf (advance (advance o.head)) = 0 := by
      have hoffset := hrest.offset
      rw [show (k + 1) % 31 = 0 by omega] at hoffset
      exact hoffset
    rw [if_pos (by rw [hend]; rfl), h.free_end hv hend]
    simp only [Option.bind_some, if_pos hzero]
    exact ⟨_, rfl, hrest⟩
  · rw [if_neg (by rw [show blockCap = 31 from rfl]; omega)]
    exact ⟨_, rfl, h.next_in hv hend⟩

theorem getElem?_beyond {m : Nat} (hm : pushed.length ≤ m) (n : Nat) :
    (List.range' m n).map (fun j => pushed[j]?) = List.replicate n none := by
  refine List.eq_replicate_iff.mpr ⟨by rw [List.length_map, List.length_range'], fun x hx => ?_⟩
  obtain ⟨j, hj, rfl⟩ := List.mem_map.mp hx
  exact List.getElem?_eq_none (hm.trans (List.mem_range'_1.mp hj).1)

/-- `n` calls of `next` answer with the next messages, and with `None` when none is left. -/
theorem Rest.nexts_eq (h : Rest pushed c k o) (n : Nat) :
    ∃ o' k', o.nexts n = some ((List.range' k n).map fun j => pushed[j]?, o') ∧
      Rest pushed c k' o' := by
  induction n generalizing k o with
  | zero => exact ⟨o, k, rfl, h⟩
  | succ n ih =>
    cases hv : pushed[k]? with
    | none =>
      have hlen := List.getElem?_eq_none_iff.mp hv
      have hk : k = pushed.length := Nat.le_antisymm h.le hlen
      obtain ⟨o', k', heq, hrest⟩ := ih h
      refine ⟨o', k', ?_, hrest⟩
      rw [Owned.nexts, h.next_eq_none hk, Option.bind_some, heq, Option.map_some,
        getElem?_beyond hlen, getElem?_beyond hlen]
      rfl
    | some v =>
      obtain ⟨o₁, hnext, hrest₁⟩ := h.next_eq_some hv
      obtain ⟨o', k', heq, hrest⟩ := ih hrest₁
      refine ⟨o', k', ?_, hrest⟩
      rw [Owned.nexts, hnext, Option.bind_some, heq, Option.map_some, List.range'_succ,
        List.map_cons, hv]

/-! ## `drop` -/

theorem dropLoop_end {fuel : Nat} (heq : o.head = o.tail) : dropLoop (fuel + 1) o = some o :=
  if_pos heq

theorem dropLoop_round {fuel : Nat} {o' : Owned V} (hne : o.head ≠ o.tail)
    (hround : dropRound o = some o') : dropLoop (fuel + 1) o = dropLoop fuel o' := by
  rw [dropLoop, if_neg hne, hround, Option.bind_some]

theorem Rest.dropRound_eq (h : Rest pushed c k o) (hv : pushed[k]? = some v) :
    dropRound o = some { o.taking (k / 31) (k % 31) v with head := advance o.head } := by
  rw [dropRound, h.block]
  simp only [Option.bind_some, h.offset, h.take hv]
  rw [if_pos (show k % 31 < blockCap from Nat.mod_lt k (by decide))]
  rfl

/-- The round after the last message of a block. -/
theorem Rest.dropRound_end (h : Rest pushed c k o) (hv : pushed[k]? = some v) (hend : k % 31 = 30) :
    dropRound { o.taking (k / 31) (k % 31) v with head := advance o.head } =
      some { (o.taking (k / 31) (k % 31) v).freeing (k / 31) with
        block := some (k / 31 + 1), head := advance (advance o.head) } := by
  have hhead := h.head_lt
  have hoffset : offsetOf (advance o.head) = 31 := by
    have := rank_mod k
    rw [advance_eq (by omega), offsetOf_eq]
    have := h.head
    omega
  have hfree := h.free_end hv hend
  simp only [Owned.free] at hfree
  split at hfree
  · cases hfree
  · next hlive =>
      rw [Option.some.injEq, Prod.mk.injEq] at hfree
      have hblock : (o.taking (k / 31) (k % 31) v).block = some (k / 31) := h.block
      simp only [dropRound, hblock, Option.bind_some, hoffset]
      rw [if_neg (by decide), Owned.free, if_neg hlive, Option.map_some, hfree.1]
      rfl

/-- The loop of `drop` comes to the tail. -/
theorem Rest.dropLoop_eq {n fuel : Nat} (h : Rest pushed c k o) (hn : pushed.length = k + n)
    (heven : o.head % 2 = 0 ∧ o.tail % 2 = 0) (hfuel : rank pushed.length < rank k + fuel) :
    ∃ o', dropLoop fuel o = some o' ∧ Rest pushed c pushed.length o' := by
  -- on the number of messages left; the last one of a block takes a second round
  induction n generalizing k o fuel with
  | zero =>
    obtain rfl : pushed.length = k := hn
    obtain ⟨fuel, rfl⟩ : ∃ n, fuel = n + 1 := ⟨fuel - 1, by omega⟩
    have hhead := h.head
    have htail := h.tail
    exact ⟨o, dropLoop_end (by omega), h⟩
  | succ n ih =>
    have hk : k < pushed.length := by omega
    have hv := List.getElem?_eq_getElem hk
    have hhead := h.head
    have htail := h.tail
    have hlt := h.head_lt
    have hrank := rank_lt hk
    have hadvance : advance o.head = o.head + 2 := advance_eq (by omega)
    obtain ⟨fuel, rfl⟩ : ∃ n, fuel = n + 1 := ⟨fuel - 1, by omega⟩
    rw [dropLoop_round (by omega) (h.dropRound_eq hv)]
    by_cases hend : k % 31 = 30
    · have hsucc := rank_succ_end hend
      have hle : rank (k + 1) ≤ rank pushed.length := rank_le hk
      have hadvance' : advance (advance o.head) = o.head + 4 := by
        rw [hadvance, advance_eq (by omega)]
      obtain ⟨fuel, rfl⟩ : ∃ n, fuel = n + 1 := ⟨fuel - 1, by omega⟩
      have hne : advance o.head ≠ o.tail := by omega
      rw [dropLoop_round hne (h.dropRound_end hv hend)]
      exact ih (h.next_end hv hend) (by omega)
        ⟨show advance (advance o.head) % 2 = 0 by omega, heven.2⟩ (by omega)
    · have hsucc := rank_succ hend
      exact ih (h.next_in hv hend) (by omega) ⟨show advance o.head % 2 = 0 by omega, heven.2⟩
        (by omega)

theorem clearNext_div (index : Nat) : clearNext index / 2 = index / 2 := by
  unfold clearNext
  omega

/-- `drop` takes what is left and frees what is not freed. -/
theorem Rest.drop_eq {fuel : Nat} (h : Rest pushed c k o) (hfuel : rank pushed.length < fuel) :
    ∃ o', o.drop fuel = some o' ∧ o'.taken = pushed.drop c ∧
      o'.freed = List.range' (c / 31) (pushed.length / 31 + 1 - c / 31) := by
  have hstart := h.start
  have hle := h.le
  have hclear : Rest pushed c k { o with head := clearNext o.head, tail := clearNext o.tail } :=
    { h with
      head := (clearNext_div o.head).trans h.head
      tail := (clearNext_div o.tail).trans h.tail }
  obtain ⟨o', hloop, hrest⟩ := hclear.dropLoop_eq (Nat.add_sub_cancel' h.le).symm
    ⟨Nat.mul_mod_left .., Nat.mul_mod_left ..⟩ (Nat.lt_add_left _ hfuel)
  refine ⟨o'.freeing (pushed.length / 31), ?_, ?_, ?_⟩
  · rw [Owned.drop, hloop, Option.bind_some, hrest.block]
    simp only [Owned.free, hrest.live _ (Nat.le_refl _), Bool.false_eq_true, if_false,
      Option.map_some]
  · show o'.taken = _
    rw [hrest.taken, List.take_length]
  · show o'.freed ++ [_] = _
    rw [hrest.freed, show pushed.length / 31 + 1 - c / 31 = (pushed.length / 31 - c / 31) + 1 by
      omega, List.range'_1_concat]
    congr 2
    omega

end Rest

/-! ## A queue that nobody uses any more -/

section Quiet

variable {ι V : Type} {s : St ι V}

/-- The messages returned are those claimed. -/
theorem Refined.mem_returned (h : Refined s) (hidle : ∀ i, s.pc i = .idle) (k : Nat) :
    k ∈ s.returned.map Prod.fst ↔ k < s.claimed := by
  refine ⟨fun hk => (h.inv.giving.given k hk).1, fun hk => (h.kept k hk).resolve_right ?_⟩
  rintro ⟨i, hi⟩
  rw [hidle i] at hi
  cases hi

/-- The blocks that are freed are those all of whose messages are returned. -/
theorem Refined.freed_iff (h : Refined s) (hidle : ∀ i, s.pc i = .idle) (b : Nat) :
    (s.blocks b).freed = true ↔ b < s.claimed / 31 := by
  constructor
  · intro hfreed
    have hdone := h.inv.core.done_of_freed (k := 31 * b + 30)
      (by rwa [show (31 * b + 30) / 31 = b by omega])
    have := hdone.1
    omega
  · intro hb
    refine h.inv.core.freed_of_quiet (by omega) (fun i k hk => ?_) fun i => ?_
    · rw [hidle i] at hk
      cases hk
    · rw [hidle i]
      rfl

/-- The phases of the tail and of the head when no call is in progress. -/
theorem Refined.phase (h : Refined s) (hidle : ∀ i, s.pc i = .idle) :
    (s.pushed = [] ∧ s.claimed = 0 ∧ s.installed = 0 ∧ s.headIndex = 0 ∧ s.tailIndex = 0 ∧
      s.headBlock = none) ∨
    (s.installed = s.pushed.length / 31 + 1 ∧ s.headIndex / 2 = rank s.claimed ∧
      s.tailIndex = 2 * rank s.pushed.length ∧ s.headBlock = some (s.claimed / 31)) := by
  have horder := h.inv.positions.order
  have hnone : (∀ i, (s.pc i).tailEdge = none) ∧ (∀ i, (s.pc i).headEdge = none) ∧
      ∀ i, (s.pc i).first = false := by
    simp only [hidle]
    exact ⟨fun _ => rfl, fun _ => rfl, fun _ => rfl⟩
  have hhead : (s.claimed = 0 ∧ s.installed = 0 ∧ s.headIndex = 0 ∧ s.headBlock = none) ∨
      (0 < s.installed ∧ s.headIndex / 2 = rank s.claimed ∧
        s.headBlock = some (s.claimed / 31)) := by
    cases h.inv.positions.head with
    | fresh hclaimed hindex hblock _ hfirst =>
      rcases hfirst with ⟨hinstalled, -⟩ | ⟨-, i, hi, -⟩
      · exact .inl ⟨hclaimed, hinstalled, hindex, hblock⟩
      · rw [hnone.2.2 i] at hi
        cases hi
    | settled hinstalled hindex hblock => exact .inr ⟨hinstalled, hindex, hblock⟩
    | edge i _ _ _ _ _ _ _ hi =>
      rw [hnone.2.1 i] at hi
      cases hi
  cases h.inv.positions.tail with
  | fresh hpushed hinstalled hindex =>
    obtain ⟨hclaimed, -, hheadIndex, hblock⟩ := hhead.resolve_right (by omega)
    exact .inl ⟨List.eq_nil_of_length_eq_zero hpushed, hclaimed, hinstalled, hheadIndex, hindex,
      hblock⟩
  | settled hinstalled hindex =>
    obtain ⟨-, hheadIndex, hblock⟩ := hhead.resolve_left (by omega)
    exact .inr ⟨hinstalled, hheadIndex, hindex, hblock⟩
  | edge i _ _ _ _ _ _ _ hi =>
    rw [hnone.1 i] at hi
    cases hi

/-- A queue at rest, with all that is left. -/
theorem Refined.rest (h : Refined s) (hidle : ∀ i, s.pc i = .idle)
    (hhead : s.headIndex / 2 = rank s.claimed) (htail : s.tailIndex = 2 * rank s.pushed.length)
    (hblock : s.headBlock = some (s.claimed / 31)) :
    Rest s.pushed s.claimed s.claimed s.owned := by
  refine ⟨Nat.le_refl _, h.inv.positions.order, h.inv.positions.bound, hhead, ?_, hblock,
    fun j _ hj => ?_, fun b _ hb => ?_, fun b hb => ?_, ?_, ?_⟩
  · show s.tailIndex / 2 = _
    omega
  · refine h.inv.writing.value j ((h.inv.writing.written j).mpr ⟨hj, fun i hi => ?_⟩)
    simp only [hidle i] at hi
    cases hi
  · rcases h.linked b hb with hnext | ⟨i, hi⟩
    · obtain ⟨m, hm⟩ := Option.ne_none_iff_exists'.mp hnext
      exact hm.trans (by rw [(h.inv.positions.next b m hm).1])
    · rw [hidle i] at hi
      cases hi
  · show (s.blocks b).freed = false
    rw [Bool.eq_false_iff, Ne, h.freed_iff hidle]
    omega
  · rw [List.drop_eq_nil_of_le (List.length_take_le ..)]
    rfl
  · rw [Nat.sub_self]
    rfl

/-- `next` and `drop` of a queue without a block. -/
theorem nexts_fresh {o : Owned V} (heq : o.head / 2 = o.tail / 2) (n : Nat) :
    o.nexts n = some (List.replicate n none, o) := by
  induction n with
  | zero => rfl
  | succ n ih =>
    rw [Owned.nexts, Owned.next, if_pos heq, Option.bind_some, ih]
    rfl

/-- A queue never used has nothing to drop. -/
theorem drop_fresh {fuel : Nat} (hfuel : 0 < fuel) (hhead : s.headIndex = 0)
    (htail : s.tailIndex = 0) (hblock : s.headBlock = none) :
    s.owned.drop fuel = some ⟨0, 0, none, s.blocks, [], []⟩ := by
  obtain ⟨fuel, rfl⟩ : ∃ n, fuel = n + 1 := ⟨fuel - 1, by omega⟩
  simp [St.owned, Owned.drop, dropLoop, hhead, htail, hblock, clearNext]

theorem map_getElem?_range' (l : List V) (c : Nat) :
    (List.range' c (l.length - c)).map (fun k => l[k]?) = (l.drop c).map some := by
  refine List.ext_getElem (by simp) fun j hj _ => ?_
  rw [List.length_map, List.length_range'] at hj
  have hlt : c + j < l.length := by omega
  simp [List.getElem?_eq_getElem hlt]

/-- **`IntoIter` and `Drop` take exactly what is left.** After any run that ends with no call in
progress and no token outstanding, the owner calls `next` any number of times and drops the queue.
The messages that come out are those not returned, in order, and each installed block that was not
freed is freed once. -/
theorem drain_exact [DecidableEq ι] (h : Reach system indexOk s) (hidle : ∀ i, s.pc i = .idle)
    (n : Nat) {fuel : Nat} (hfuel : rank s.pushed.length < fuel) :
    ∃ items o o', s.owned.nexts n = some (items, o) ∧ o.drop fuel = some o' ∧
      o'.taken.map some = (left s.pushed s.returned).map (fun k => s.pushed[k]?) ∧
      items = (List.range n).map (fun j => o'.taken[j]?) ∧
      o'.freed.Nodup ∧ ∀ b, b ∈ o'.freed ↔ b < s.installed ∧ (s.blocks b).freed = false := by
  have hrefined := refined_of_reach h
  have horder := hrefined.inv.positions.order
  have hleft := left_eq (hrefined.mem_returned hidle) horder
  rcases hrefined.phase hidle with
    ⟨hpushed, hclaimed, hinstalled, hhead, htail, hblock⟩ | ⟨hinstalled, hhead, htail, hblock⟩
  · have heq : s.owned.head / 2 = s.owned.tail / 2 := by
      show s.headIndex / 2 = s.tailIndex / 2
      rw [hhead, htail]
    refine ⟨_, _, _, nexts_fresh heq n, drop_fresh (by omega) hhead htail hblock, ?_, ?_,
      List.nodup_nil, fun b => ?_⟩
    · rw [hleft, hpushed, List.length_nil, Nat.zero_sub]
      rfl
    · exact (List.eq_replicate_iff.mpr ⟨by simp, by simp⟩).symm
    · rw [hinstalled]
      exact ⟨nofun, fun hb => absurd hb.1 (Nat.not_lt_zero b)⟩
  · obtain ⟨o, k, hnexts, hrest⟩ := (hrefined.rest hidle hhead htail hblock).nexts_eq n
    obtain ⟨o', hdrop, htaken, hfreed⟩ := hrest.drop_eq hfuel
    refine ⟨_, o, o', hnexts, hdrop, ?_, ?_, ?_, fun b => ?_⟩
    · rw [htaken, hleft, map_getElem?_range']
    · rw [htaken, List.range'_eq_map_range, List.map_map]
      exact List.map_congr_left fun j _ => List.getElem?_drop.symm
    · rw [hfreed]
      exact List.nodup_range'
    · rw [hfreed, List.mem_range'_1, Bool.eq_false_iff, Ne, hrefined.freed_iff hidle, hinstalled]
      omega

/-- One agent makes a call of `n` steps. -/
private def alone (a : Act Unit Nat) (n : Nat) : List (Act Unit Nat) :=
  a :: List.replicate n (.go () false)

/-- The agent is in no call. -/
private def isIdle : Pc Nat → Bool
  | .idle => true
  | _ => false

/-- The messages fill one block and begin another, and the first one was popped. -/
theorem drain_exact_two_blocks : ∃ s : St Unit Nat, Reach system indexOk s ∧
    (∃ items o o', s.owned.nexts 31 = some (items, o) ∧ o.drop 40 = some o' ∧
      o'.taken.map some = (left s.pushed s.returned).map (fun k => s.pushed[k]?) ∧
      items = (List.range 31).map (fun j => o'.taken[j]?) ∧
      o'.freed.Nodup ∧ ∀ b, b ∈ o'.freed ↔ b < s.installed ∧ (s.blocks b).freed = false) ∧
    (s.installed = 2 ∧ s.pushed = List.replicate 32 7 ∧ s.returned = [(0, some 7)]) := by
  have hnew : Reach system indexOk (St.new : St Unit Nat) := .init rfl
  obtain ⟨s, hs, hidle, hrest⟩ := hnew.exists_of_run
    (alone (.push () 7) 7 ++ (List.replicate 29 (alone (.push () 7) 5)).flatten ++
      alone (.push () 7) 8 ++ alone (.push () 7) 5 ++ alone (.pop () true) 8)
    (fun s => isIdle (s.pc ()) = true ∧ s.installed = 2 ∧ s.pushed = List.replicate 32 7 ∧
      s.returned = [(0, some 7)]) (by decide +kernel)
  have hidle : ∀ i, s.pc i = .idle := by
    intro i
    cases hpc : s.pc i with
    | idle => rfl
    | _ => simp [isIdle, hpc] at hidle
  exact ⟨s, hs, drain_exact hs hidle 31 (by rw [hrest.2.1]; decide), hrest⟩

end Quiet

end Crossfire.SegQueue
