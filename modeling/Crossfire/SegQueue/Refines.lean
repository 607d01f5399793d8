import Crossfire.SegQueue.Delivery
import Mathlib.Data.Nat.PSub

/-!
# `SegQueue` refines an unbounded queue

`segQueue_isFifo`: the pop that claims message `k` returns it, and a pop or a `try_select` that
returns `None` does so at a moment when every message is claimed. Such a call compares a head that
it has loaded before with the tail; since the head only grows and does not pass the tail, a head
that equals the tail is still the present one.

`len` and `is_empty` load the head and the tail at different moments, while pushes and pops go on. A
queue is watched by one caller (`Watched`), and the history keeps the number of unclaimed messages
at every instant of the call. `len` corrects for an index at the end of a block, so its answer is
true of some instant. `is_empty` does not: it may answer false of an empty queue while a pop moves
the head to the next block. `segQueue_len_true` says that there is no other way for it to be wrong.
-/

set_option autoImplicit false

namespace Crossfire.SegQueue

open Lib.Interleaving Function
open Lib.Fifo

/-! ## Words that only grow -/

section Words

variable {ι V : Type} {s t : St ι V} {i : ι}

theorem eq_of_rank_eq {k n : Nat} (h : rank k = rank n) : k = n := by
  rcases Nat.lt_trichotomy k n with hlt | heq | hgt
  · exact absurd h (rank_lt hlt).ne
  · exact heq
  · exact absurd h (rank_lt hgt).ne'

/-- What the tail says about the number of pushes. -/
theorem Tail.index_cases {pushed installed tailIndex : Nat} {tailBlock : Option Nat}
    {edge : ι → Option (Bool × Nat)} (h : Tail pushed installed tailIndex tailBlock edge) :
    tailIndex = 2 * rank pushed ∨
      ∃ k, pushed = k + 1 ∧ k % 31 = 30 ∧ tailIndex = 2 * (rank k + 1) := by
  cases h with
  | fresh hpushed _ hindex => exact .inl (by rw [hpushed, hindex]; rfl)
  | settled _ hindex => exact .inl hindex
  | edge i stored k hpushed hk _ hindex => exact .inr ⟨k, hpushed, hk, hindex⟩

/-- What the head says about the number of claimed messages. -/
theorem Head.index_cases {claimed installed headIndex : Nat} {headBlock : Option Nat}
    {edge : ι → Option (Bool × Nat)} {first : ι → Bool}
    (h : Head claimed installed headIndex headBlock edge first) :
    headIndex / 2 = rank claimed ∨
      ∃ i stored k, edge i = some (stored, k) ∧ claimed = k + 1 ∧ k % 31 = 30 ∧
        headIndex / 2 = rank k + 1 := by
  cases h with
  | fresh hclaimed hindex => exact .inl (by rw [hclaimed, hindex]; rfl)
  | settled _ hindex => exact .inl hindex
  | edge i stored k hclaimed hk _ hindex _ hi => exact .inr ⟨i, stored, k, hi, hclaimed, hk, hindex⟩

/-- When the head is at the tail, every message is claimed. -/
theorem Positions.claimed_eq (h : Positions s) (heq : s.headIndex / 2 = s.tailIndex / 2) :
    s.claimed = s.pushed.length := by
  -- an index at the end of a block has another remainder than one at a message
  rcases h.head.index_cases with hhead | ⟨-, -, k, -, hclaimed, hk, hhead⟩ <;>
    rcases h.tail.index_cases with htail | ⟨n, hpushed, hn, htail⟩
  · exact eq_of_rank_eq (by omega)
  · have := rank_mod s.claimed
    have := rank_mod n
    omega
  · have := rank_mod s.pushed.length
    have := rank_mod k
    omega
  · have := eq_of_rank_eq (k := k) (n := n) (by omega)
    omega

end Words

/-! ## A step -/

section Ahead

variable {ι V : Type} {s t : St ι V} {i : ι} {pc : Pc V}

/-- The head that `is_empty` has loaded in `try_select`, and the block whose `next` a push is going
to store. -/
def Pc.notes : Pc V → Option Nat × Option Nat
  | .emptyTail head => (some head, none)
  | .storeBlock _ c _ _ | .storeIndex _ c _ _ | .storeNext _ c _ => (none, some c.block)
  | _ => (none, none)

theorem notes_gotPc (select : Bool) (c : Claim) : (gotPc select c : Pc V).notes = (none, none) := by
  cases select <;> rfl

theorem notes_destroyPc (b o k : Nat) (msg : Option V) :
    (destroyPc b o k msg).notes = (none, none) := by
  unfold destroyPc
  split_ifs <;> rfl

/-- Only `is_empty` notes a head, and it is the present one. -/
theorem Loads.notes {p q : Pc V} (h : Loads s p q) :
    q.notes.2 = p.notes.2 ∧ ∀ head, q.notes.1 = some head → head = s.headIndex := by
  cases h with
  | emptyHead => exact ⟨rfl, fun _ h => (Option.some.inj h).symm⟩
  | _ => exact ⟨rfl, by rintro _ ⟨⟩⟩

theorem Looks.notes {p q : Pc V} {b : Nat} (h : Looks s p b q) : q.notes = (none, p.notes.2) := by
  cases h with
  | valueLast | pass => exact notes_destroyPc ..
  | _ => rfl

/-- A head that `is_empty` has loaded is not past the present one. -/
def St.Behind (s : St ι V) : Prop := ∀ i head, (s.pc i).notes.1 = some head → head ≤ s.headIndex

/-- A full block has a successor, or the push that filled it is going to store it. -/
def St.Linked (s : St ι V) : Prop := ∀ n, n < s.pushed.length / 31 →
  (s.blocks n).next ≠ none ∨ ∃ i, (s.pc i).notes.2 = some n

variable [DecidableEq ι]

/-- Agent `i` moves and the indices do not fall. -/
structure Ahead (s t : St ι V) (i : ι) (pc : Pc V) : Prop where
  moves : t.pc = update s.pc i pc
  head : s.headIndex ≤ t.headIndex
  tail : s.tailIndex ≤ t.tailIndex
  looks : ∀ head, pc.notes.1 = some head → head = s.headIndex
  linked : s.Linked → t.Linked

/-- No block is filled, and no successor is stored. -/
theorem St.Linked.keep (h : s.Linked) (hpc : t.pc = update s.pc i pc)
    (hpushed : t.pushed.length / 31 = s.pushed.length / 31)
    (hnext : ∀ n, (t.blocks n).next = (s.blocks n).next) (hlinks : pc.notes.2 = (s.pc i).notes.2) :
    t.Linked := by
  intro n hn
  rw [hpushed] at hn
  rw [hnext]
  refine (h n hn).imp_right fun ⟨j, hj⟩ => ⟨j, ?_⟩
  by_cases hji : j = i
  · rw [hpc, hji, update_self, hlinks, ← hji, hj]
  · rw [hpc, update_of_ne hji, hj]

theorem Ahead.blind (hpc : t.pc = update s.pc i pc) (hhead : s.headIndex ≤ t.headIndex)
    (htail : s.tailIndex ≤ t.tailIndex) (hnone : pc.notes.1 = none)
    (hlinked : s.Linked → t.Linked) : Ahead s t i pc := by
  refine ⟨hpc, hhead, htail, fun head hhead => ?_, hlinked⟩
  rw [hnone] at hhead
  cases hhead

theorem Ahead.access {b : Nat} {block : Block V} (hnext : block.next = (s.blocks b).next)
    (hnotes : pc.notes = (none, (s.pc i).notes.2)) : Ahead s (s.access b block i pc) i pc :=
  .blind rfl (Nat.le_refl _) (Nat.le_refl _) (by rw [hnotes])
    fun h => h.keep rfl rfl (field_update Block.next hnext) (by rw [hnotes])

theorem Ahead.give {b k : Nat} {block : Block V} {msg : Option V}
    (hnext : block.next = (s.blocks b).next) (hnotes : (s.pc i).notes = (none, none)) :
    Ahead s ((s.access b block i .idle).give i k msg) i .idle :=
  .blind give_access (Nat.le_refl _) (Nat.le_refl _) rfl
    fun h => h.keep give_access rfl (field_update Block.next hnext) (by rw [hnotes]; rfl)

/-- A push claims a slot; if it is the last one of the block, the push installs the next one. -/
theorem Ahead.cas {v : V} {tail b : Nat} (h : Positions s) (hpc : s.pc i = .cas v tail b)
    (heq : s.tailIndex = tail) (hmoves : t.pc = update s.pc i pc)
    (hwords : t.headIndex = s.headIndex ∧ t.tailIndex = advance tail)
    (hpushed : t.pushed = s.pushed ++ [v]) (hblocks : t.blocks = s.blocks)
    (hnotes : pc.notes = (none, if offsetOf tail + 1 = blockCap then some b else none)) :
    Ahead s t i pc := by
  subst heq
  obtain ⟨-, -, rfl, -, hoffset, -⟩ := h.at_cas hpc
  have hlength : t.pushed.length = s.pushed.length + 1 := by
    rw [hpushed, List.length_append]
    rfl
  have hgrow : s.tailIndex ≤ t.tailIndex := by
    rw [hwords.2, advance_eq h.tailIndex_lt]
    omega
  refine .blind hmoves hwords.1.ge hgrow (by rw [hnotes]) fun hlinked => ?_
  rw [hoffset, show blockCap = 31 from rfl] at hnotes
  by_cases hlast : s.pushed.length % 31 + 1 = 31
  · -- the block is full now, and this push is the one to store its successor
    rw [if_pos hlast] at hnotes
    intro n hn
    rw [hlength] at hn
    by_cases hnew : n = s.pushed.length / 31
    · refine .inr ⟨i, ?_⟩
      rw [hmoves, update_self, hnotes, hnew]
    · rw [hblocks]
      refine (hlinked n (by omega)).imp_right fun ⟨j, hj⟩ => ⟨j, ?_⟩
      have hji : j ≠ i := by
        rintro rfl
        rw [hpc] at hj
        cases hj
      rw [hmoves, update_of_ne hji, hj]
  · rw [if_neg hlast] at hnotes
    exact hlinked.keep hmoves (by omega) (fun _ => by rw [hblocks]) (by rw [hnotes, hpc]; rfl)

/-- The block is linked. -/
theorem Ahead.storeNext {v : V} {c : Claim} {next : Nat} (hpc : s.pc i = .storeNext v c next) :
    Ahead s (s.access c.block { s.blocks c.block with next := some next } i (.write v c)) i
      (.write v c) := by
  refine .blind rfl (Nat.le_refl _) (Nat.le_refl _) rfl fun h n hn => ?_
  by_cases hnew : n = c.block
  · refine .inl ?_
    simp [hnew, St.access]
  · simp only [St.access, update_of_ne hnew]
    rcases h n hn with hnext | ⟨j, hj⟩
    · exact .inl hnext
    · have hji : j ≠ i := by
        rintro rfl
        rw [hpc] at hj
        exact hnew (Option.some.inj hj).symm
      exact .inr ⟨j, by rw [update_of_ne hji, hj]⟩

/-- The tail moves to the next block. -/
theorem Ahead.storeIndex {v : V} {c : Claim} {next newTail : Nat} (h : Positions s)
    (hpc : s.pc i = .storeIndex v c next newTail) :
    Ahead s { s with tailIndex := advance newTail, pc := update s.pc i (.storeNext v c next) } i
      (.storeNext v c next) := by
  obtain ⟨-, hnew⟩ := h.tracks_at hpc
  obtain ⟨-, -, -, hindex, -⟩ := h.tail.of_edge (i := i) (by rw [hpc]; rfl)
  refine .blind rfl (Nat.le_refl _) ?_ rfl fun h => h.keep rfl rfl (fun _ => rfl) (by rw [hpc]; rfl)
  show s.tailIndex ≤ advance newTail
  rw [hnew, ← hindex, advance_eq h.tailIndex_lt]
  omega

/-- The head moves. -/
theorem Ahead.popCas {select : Bool} {head b newHead : Nat} (h : Positions s)
    (hpc : s.pc i = .popCas select head b newHead) (hhead : s.headIndex = head)
    (hmoves : t.pc = update s.pc i pc) (hwords : t.headIndex = newHead ∧ t.tailIndex = s.tailIndex)
    (hpushed : t.pushed = s.pushed) (hblocks : t.blocks = s.blocks)
    (hnotes : pc.notes = (none, none)) : Ahead s t i pc := by
  obtain ⟨-, -, hnew, -⟩ := h.tracks_at hpc
  exact .blind hmoves (by omega) hwords.2.ge (by rw [hnotes])
    fun h => h.keep hmoves (by rw [hpushed]) (fun _ => by rw [hblocks]) (by rw [hnotes, hpc]; rfl)

/-- The head moves to the next block. -/
theorem Ahead.storeHeadIndex {select : Bool} {c : Claim} {nextIndex : Nat} (h : Positions s)
    (hpc : s.pc i = .storeHeadIndex select c nextIndex) :
    Ahead s { s with headIndex := nextIndex, pc := update s.pc i (gotPc select c) } i
      (gotPc select c) := by
  obtain ⟨hnew, -⟩ := h.tracks_at hpc
  have hclaim := h.claim i c (by rw [hpc]; rfl)
  obtain ⟨-, -, -, hindex, -⟩ := h.head.of_edge (i := i) (by rw [hpc]; rfl)
  refine .blind rfl ?_ (Nat.le_refl _) (by rw [notes_gotPc])
    fun h => h.keep rfl rfl (fun _ => rfl) (by rw [notes_gotPc, hpc]; rfl)
  -- from the end of this block to the start of the next
  show s.headIndex ≤ nextIndex
  have := rank_mod c.k
  have := rank_div c.k
  have := hclaim.block
  omega

/-- A step of a call. -/
theorem ahead_of_goes (h : Positions s) (hgoes : Goes s i t) : ∃ pc, Ahead s t i pc := by
  cases hgoes with
  | loads pc hloads =>
    obtain ⟨hnotes, hlooks⟩ := hloads.notes
    exact ⟨pc, rfl, Nat.le_refl _, Nat.le_refl _, hlooks,
      fun h => h.keep rfl rfl (fun _ => rfl) hnotes⟩
  | looks b pc hlooks => exact ⟨pc, .access rfl hlooks.notes⟩
  | cas v tail b hpc htail hin =>
    exact ⟨_, .cas h hpc htail rfl ⟨rfl, rfl⟩ rfl rfl (by rw [if_neg hin]; rfl)⟩
  | casLast v tail b hpc htail hlast =>
    exact ⟨_, .cas h hpc htail rfl ⟨rfl, rfl⟩ rfl rfl (by rw [if_pos hlast]; rfl)⟩
  | casFirst _ _ hpc | storeFirst _ _ _ hpc | storeBlock _ _ _ _ hpc
  | storeHeadBlock _ _ _ _ hpc =>
    exact ⟨_, .blind rfl (Nat.le_refl _) (Nat.le_refl _) rfl
      fun h => h.keep rfl rfl (fun _ => rfl) (by rw [hpc]; rfl)⟩
  | storeIndex _ _ _ _ hpc => exact ⟨_, .storeIndex h hpc⟩
  | storeNext _ _ _ hpc => exact ⟨_, .storeNext hpc⟩
  | write _ _ hpc | publish _ hpc => exact ⟨_, .access rfl (by rw [hpc]; rfl)⟩
  | popCas select head b newHead hpc hhead =>
    refine ⟨_, .popCas h hpc hhead rfl ⟨rfl, rfl⟩ rfl rfl ?_⟩
    split
    · rfl
    · exact notes_gotPc ..
  | storeHeadIndex _ _ _ hpc => exact ⟨_, .storeHeadIndex h hpc⟩
  | resume _ _ hpc | passMark _ _ _ _ hpc =>
    exact ⟨_, .access rfl (by rw [hpc]; exact notes_destroyPc ..)⟩
  | mark _ _ hpc | leave _ _ _ _ hpc | free _ _ _ hpc => exact ⟨_, .give rfl (by rw [hpc]; rfl)⟩

/-- **No position goes back.** -/
theorem ahead_of_step {a : Act ι V} (h : Positions s) (hst : step s a = some t) :
    ∃ i pc, Ahead s t i pc := by
  refine ⟨a.agent, ?_⟩
  rcases step_cases hst with ⟨pc, hidle, hstarts, rfl⟩ | hgoes
  · have hnotes : pc.notes = (none, none) := by
      cases pc with
      | loadTail | emptyHead | finalHead | loadHead => rfl
      | _ => cases hstarts
    exact ⟨pc, .blind rfl (Nat.le_refl _) (Nat.le_refl _) (by rw [hnotes])
      fun h => h.keep rfl rfl (fun _ => rfl) (by rw [hnotes, hidle]; rfl)⟩
  · exact ahead_of_goes h hgoes

theorem behind_of_ahead (h : s.Behind) (hahead : Ahead s t i pc) : t.Behind := by
  intro j head hj
  rw [hahead.moves] at hj
  by_cases hji : j = i
  · rw [hji, update_self] at hj
    exact (hahead.looks head hj).le.trans hahead.head
  · rw [update_of_ne hji] at hj
    exact (h j head hj).trans hahead.head

/-- What a step does to the numbers of messages: nothing, or it claims or returns one. -/
inductive Counts (s t : St ι V) (i : ι) : Prop
  | stay (hpushed : s.pushed.length ≤ t.pushed.length)
      (hlength : t.pushed.length ≤ s.pushed.length + 1) (hclaimed : t.claimed = s.claimed)
      (hreturned : t.returned = s.returned) (hcarries : ∀ j, (t.pc j).carries = (s.pc j).carries)
  | claim (hpushed : t.pushed = s.pushed) (hclaimed : t.claimed = s.claimed + 1)
      (hreturned : t.returned = s.returned) (hnone : (s.pc i).carries = none)
      (hcarries : (t.pc i).carries = some s.claimed)
      (hother : ∀ j, j ≠ i → (t.pc j).carries = (s.pc j).carries)
  | give (k : Nat) (msg : Option V) (hpushed : t.pushed = s.pushed)
      (hclaimed : t.claimed = s.claimed) (hcarries : (s.pc i).carries = some k)
      (hreturned : t.returned = s.returned ++ [(k, msg)])
      (hother : ∀ j, j ≠ i → (t.pc j).carries = (s.pc j).carries)

theorem carries_destroyPc (b o k : Nat) (msg : Option V) :
    (destroyPc b o k msg).carries = some k := by
  unfold destroyPc
  split_ifs <;> rfl

theorem carries_other (hpc : t.pc = update s.pc i pc) (j : ι) (hj : j ≠ i) :
    (t.pc j).carries = (s.pc j).carries := by
  rw [hpc, update_of_ne hj]

/-- Agent `i` keeps what it carries. -/
theorem Counts.keep (hpc : t.pc = update s.pc i pc)
    (hhistory : t.history = s.history) (hcarries : pc.carries = (s.pc i).carries) :
    Counts s t i := by
  obtain ⟨hpushed, hclaimed, hreturned⟩ : _ ∧ _ ∧ _ := by
    simpa only [St.history, Prod.mk.injEq] using hhistory
  refine .stay (by rw [hpushed]) (by rw [hpushed]; omega) hclaimed hreturned fun j => ?_
  by_cases hj : j = i
  · rw [hj, hpc, update_self, hcarries]
  · exact carries_other hpc j hj

/-- What a move adds to the history. -/
theorem counts_of_move (h : Move s i t) : Counts s t i := by
  cases h with
  | still _ pc hpc hhistory _ _ hroles => exact .keep hpc hhistory (roles_eq hroles).2.2.1
  | cas _ v pc hpc hidle _ hhistory hroles =>
    obtain ⟨hpushed, hclaimed, hreturned⟩ : _ ∧ _ ∧ _ := by
      simpa only [St.history, Prod.mk.injEq] using hhistory
    have hlength : t.pushed.length = s.pushed.length + 1 := by
      rw [hpushed, List.length_append]
      rfl
    refine .stay (by omega) hlength.le hclaimed hreturned fun j => ?_
    by_cases hj : j = i
    · rw [hj, hpc, update_self, (roles_eq hroles).2.2.1, (roles_eq hidle).2.2.1]
    · exact carries_other hpc j hj
  | popCas _ pc hpc hidle _ hhistory hroles =>
    obtain ⟨hpushed, hclaimed, hreturned⟩ : _ ∧ _ ∧ _ := by
      simpa only [St.history, Prod.mk.injEq] using hhistory
    refine .claim hpushed hclaimed hreturned (roles_eq hidle).2.2.1 ?_ (carries_other hpc)
    rw [hpc, update_self, (roles_eq hroles).2.2.1]
  | write _ _ _ hpc | publish _ _ hpc | value _ hpc => exact .keep rfl rfl (by rw [hpc]; rfl)
  | valueLast _ hpc | resume _ _ _ hpc | pass _ _ _ _ hpc | passMark _ _ _ _ _ hpc =>
    exact .keep rfl rfl (by rw [hpc, carries_destroyPc]; rfl)
  | mark c msg _ hpc | leave _ _ k msg _ hpc | free _ k msg hpc =>
    exact .give _ msg rfl rfl (by rw [hpc]; rfl) rfl (carries_other give_access)

end Ahead

/-! ## The refinement -/

section Fifo

variable {ι V : Type} {s t : St ι V} {i : ι}

/-- The head that a call is going to compare with the tail. -/
def Pc.compares : Pc V → Option Nat
  | .emptyTail head | .finalTail head | .popTail _ head _ => some head
  | _ => none

/-- The next step of agent `i` returns `None`. -/
def St.misses (s : St ι V) (i : ι) : Prop := ∃ head, (s.pc i).compares = some head ∧
  head / 2 = s.tailIndex / 2

/-- What was claimed is returned, or the call that claimed it has it. -/
def St.Kept (s : St ι V) : Prop :=
  ∀ k, k < s.claimed → k ∈ s.returned.map Prod.fst ∨ ∃ i, (s.pc i).carries = some k

/-- The history stays right. -/
theorem kept_of_counts (h : s.Kept) (hcounts : Counts s t i) : t.Kept := by
  intro k hk
  cases hcounts with
  | stay _ _ hclaimed hreturned hcarries =>
    rw [hreturned]
    simp only [hcarries]
    exact h k (hclaimed ▸ hk)
  | claim _ hclaimed hreturned hnone hcarries hother =>
    rw [hreturned]
    by_cases heq : k = s.claimed
    · exact .inr ⟨i, by rw [hcarries, heq]⟩
    · rcases h k (by omega) with hmem | ⟨j, hj⟩
      · exact .inl hmem
      · by_cases hji : j = i
        · rw [hji, hnone] at hj
          cases hj
        · exact .inr ⟨j, (hother j hji).trans hj⟩
  | give n msg _ hclaimed hcarries hreturned hother =>
    rw [hreturned, List.map_append]
    rcases h k (hclaimed ▸ hk) with hmem | ⟨j, hj⟩
    · exact .inl (List.mem_append_left _ hmem)
    · by_cases hji : j = i
      · rw [hji, hcarries] at hj
        cases hj
        exact .inl (List.mem_append_right _ (List.mem_singleton.mpr rfl))
      · exact .inr ⟨j, (hother j hji).trans hj⟩

variable [DecidableEq ι]

/-- All invariants together. -/
structure Refined (s : St ι V) : Prop where
  inv : Inv s
  kept : s.Kept
  behind : s.Behind
  linked : s.Linked

/-- **Every action keeps the refinement.** -/
theorem refined_of_step {a : Act ι V} (h : Refined s) (hok : indexOk s a)
    (hst : step s a = some t) : Refined t := by
  obtain ⟨i, hmove⟩ := move_of_step h.inv.positions.claim hst
  obtain ⟨j, pc, hahead⟩ := ahead_of_step h.inv.positions hst
  exact ⟨inv_of_step h.inv hok hst, kept_of_counts h.kept (counts_of_move hmove),
    behind_of_ahead h.behind hahead, hahead.linked h.linked⟩

theorem refined_of_reach (h : Reach system indexOk s) : Refined s := by
  refine h.invariant (fun s hs => ?_) fun s a t hs hok hst => refined_of_step hs hok hst
  cases hs
  exact ⟨core_new.inv positions_new, nofun, nofun, fun n hn => by simp [St.new] at hn⟩

omit [DecidableEq ι] in
/-- A head once read is never ahead. -/
theorem Refined.compares_le {head : Nat} (h : Refined s) (hi : (s.pc i).compares = some head) :
    head ≤ s.headIndex := by
  have htracks := h.inv.positions.tracks i
  cases hpc : s.pc i with
  | emptyTail head' =>
    rw [hpc] at hi
    exact h.behind i head (by rw [hpc]; exact hi)
  | finalTail head' =>
    rw [hpc] at hi htracks
    cases hi
    exact htracks
  | popTail select head' block =>
    rw [hpc] at hi htracks
    cases hi
    exact htracks.1
  | _ => rw [hpc] at hi; cases hi

/-- An unbounded queue. -/
structure IsFifo (s : St ι V) : Prop where
  /-- The pop or the token that claimed message `k` returns it, and is the only one to. -/
  delivers : Delivers s.pushed s.returned
  /-- What was claimed is returned, or the call that claimed it has it. -/
  claimed : s.Kept
  order : s.claimed ≤ s.pushed.length
  /-- A slot is read when it holds its message and nobody writes it, and its block is not freed. -/
  read : ∀ i c, s.pc i = .value c →
    ((s.blocks c.block).slot c.offset).value = s.pushed[c.k]? ∧
      (∀ j, (s.pc j).writes ≠ some c.k) ∧ (s.blocks c.block).freed = false
  /-- `None` is returned when nothing is unclaimed. -/
  missed : ∀ i, s.misses i → s.claimed = s.pushed.length

/-- **`SegQueue` refines an unbounded queue**, in all interleavings of any number of agents that
push, pop, take tokens and redeem them. -/
theorem segQueue_isFifo (h : Reach system indexOk s) : IsFifo s := by
  have hrefined := refined_of_reach h
  have hinv := hrefined.inv
  refine ⟨hinv.giving.delivers, hrefined.kept, hinv.positions.order, fun i c hpc => ?_,
    fun i hmiss => ?_⟩
  · have hwritten : (s.slots c.k).written = true := by
      have := hinv.knows i
      rwa [hpc] at this
    have hfits := hinv.positions.claim i c (by rw [hpc]; rfl)
    refine ⟨?_, fun j hj => ?_, hinv.not_freed_of_touches (i := i) (by rw [hpc]; rfl)⟩
    · rw [slots_of_fits hfits]
      exact hinv.writing.value c.k hwritten
    · exact ((hinv.writing.written c.k).mp hwritten).2 j hj
  · -- the loaded head is the tail, and the present head is between them
    obtain ⟨head, hcompares, heq⟩ := hmiss
    have := hrefined.compares_le hcompares
    have := hinv.positions.le
    exact hinv.positions.claimed_eq (by omega)

/-- A token is redeemed, and meanwhile a pop finds nothing. -/
theorem segQueue_isFifo_select : ∃ s : St (Fin 3) Nat, Reach system indexOk s ∧ IsFifo s ∧
    ((s.pc 1).carries = some 0 ∧ (s.pc 2).compares = some 2 ∧ s.tailIndex = 2 ∧
      s.pushed = [7] ∧ s.claimed = 1) := by
  have hnew : Reach system indexOk (St.new : St (Fin 3) Nat) := .init rfl
  obtain ⟨s, hs, htest⟩ := hnew.exists_of_run
    (.push 0 7 :: List.replicate 7 (.go 0 false) ++ .select 1 true ::
      List.replicate 6 (.go 1 false) ++ [.redeem 1, .go 1 false, .pop 2 true, .go 2 false])
    (fun s => (s.pc 1).carries = some 0 ∧ (s.pc 2).compares = some 2 ∧ s.tailIndex = 2 ∧
      s.pushed = [7] ∧ s.claimed = 1) (by decide +kernel)
  exact ⟨s, hs, segQueue_isFifo hs, htest⟩

end Fifo

/-! ## `len` -/

/-- `wrapping_sub`. -/
def wrappingSub (a b : Nat) : Nat := (a + (2 ^ 64 - b % 2 ^ 64)) % 2 ^ 64

/-- `len` fixes up an index that falls onto the end of a block. -/
def fixUp (index : Nat) : Nat := if offsetOf index = lap - 1 then advance index else index

/-- What `len` computes from a tail and a head; `none` if a subtraction overflows. -/
def lenOf (tail head : Nat) : Option Nat :=
  let tail := fixUp (clearNext tail)
  let head := fixUp (clearNext head)
  let rotation := lapOf head * lap * 2
  let tail := wrappingSub tail rotation / 2
  let head := wrappingSub head rotation / 2
  (tail.psub head).bind fun n => n.psub (tail / lap)

section Len

variable {ι V : Type} {s : St ι V}

theorem wrappingSub_eq {a b : Nat} (hle : b ≤ a) (ha : a < 2 ^ 64) :
    wrappingSub a b = a - b := by
  unfold wrappingSub
  omega

theorem fixUp_rank (k : Nat) : fixUp (2 * rank k) = 2 * rank k := by
  have hmod := rank_mod k
  refine if_neg ?_
  rw [offsetOf_eq, show lap - 1 = 31 from rfl]
  omega

/-- The end of a block stands for the start of the next one. -/
theorem fixUp_end {k : Nat} (hk : k % 31 = 30) (hbound : k < 2 ^ 57) :
    fixUp (2 * (rank k + 1)) = 2 * rank (k + 1) := by
  have hmod := rank_mod k
  have hrank := rank_bound hbound.le
  have hend : offsetOf (2 * (rank k + 1)) = lap - 1 := by
    rw [offsetOf_eq, show lap - 1 = 31 from rfl]
    omega
  rw [fixUp, if_pos hend, advance_eq (by omega), rank_succ_end hk]
  omega

/-- The tail that `len` computes with. -/
theorem Positions.fixUp_tail (h : Positions s) :
    fixUp (clearNext s.tailIndex) = 2 * rank s.pushed.length := by
  have hbound := h.bound
  rcases h.tail.index_cases with htail | ⟨k, hpushed, hk, htail⟩
  · rw [show clearNext s.tailIndex = 2 * rank s.pushed.length by unfold clearNext; omega]
    exact fixUp_rank _
  · rw [show clearNext s.tailIndex = 2 * (rank k + 1) by unfold clearNext; omega, hpushed]
    exact fixUp_end hk (by omega)

/-- The head that `len` computes with. -/
theorem Positions.fixUp_head (h : Positions s) :
    fixUp (clearNext s.headIndex) = 2 * rank s.claimed := by
  have hbound := h.order.trans h.bound
  rcases h.head.index_cases with hhead | ⟨-, -, k, -, hclaimed, hk, hhead⟩
  · rw [show clearNext s.headIndex = 2 * rank s.claimed by unfold clearNext; omega]
    exact fixUp_rank _
  · rw [show clearNext s.headIndex = 2 * (rank k + 1) by unfold clearNext; omega, hclaimed]
    exact fixUp_end hk (by omega)

/-- From the head and the tail of one instant, `len` computes the number of unclaimed messages. -/
theorem Positions.lenOf_eq (h : Positions s) :
    lenOf s.tailIndex s.headIndex = some (s.pushed.length - s.claimed) := by
  have horder := h.order
  have hrank := rank_bound h.bound
  have hle := rank_le horder
  have hdiv := rank_div s.claimed
  have hlap : lapOf (2 * rank s.claimed) * lap * 2 = 64 * (s.claimed / 31) := by
    rw [lapOf_eq, show lap = 32 from rfl]
    omega
  -- with the head in the first lap, the tail's lap is the number of block ends between the two
  simp only [lenOf, h.fixUp_tail, h.fixUp_head, hlap]
  rw [wrappingSub_eq (by unfold rank; omega) (by omega),
    wrappingSub_eq (by omega) (by omega), Nat.psub_eq_sub (by omega), Option.bind_some,
    Nat.psub_eq_some, show lap = 32 from rfl]
  unfold rank at *
  omega

/-- When nothing is unclaimed and no pop moves the head, the head is at the tail. -/
theorem Positions.settled (h : Positions s) (hempty : s.claimed = s.pushed.length)
    (hturning : offsetOf s.headIndex ≠ blockCap) :
    s.headIndex / 2 = rank s.claimed ∧ s.tailIndex / 2 = rank s.claimed := by
  have hle := h.le
  rcases h.head.index_cases with hhead | ⟨-, -, k, -, -, hk, hhead⟩
  · refine ⟨hhead, ?_⟩
    rcases h.tail.index_cases with htail | ⟨n, hpushed, hn, htail⟩
    · rw [hempty]
      omega
    · have := rank_succ_end hn
      rw [hempty, hpushed] at hhead
      omega
  · have := rank_mod k
    refine absurd ?_ hturning
    rw [offsetOf_eq, show blockCap = 31 from rfl]
    omega

end Len

/-! ## A caller of `len` and `is_empty` -/

/-- The number of unclaimed messages, and whether a pop moves the head to the next block. -/
structure Instant where
  count : Nat
  turning : Bool
  deriving DecidableEq

/-- Program counter of the caller. -/
inductive Look
  | idle
  /-- `len`: the loads of the tail, of the head and of the tail again. -/
  | lenTail
  | lenHead (tail : Nat)
  | lenAgain (tail head : Nat)
  /-- `is_empty`: the loads of the head and of the tail. -/
  | emptyHead
  | emptyTail (head : Nat)

/-- What a call returned. -/
inductive Said
  | len (n : Option Nat)
  | isEmpty (b : Bool)
  deriving DecidableEq

/-- A queue with one caller that looks at it. -/
structure Watched (ι V : Type) where
  queue : St ι V
  look : Look
  /-- The instants of the call. -/
  instants : List Instant
  /-- The answers, each with the instants of its call. -/
  log : List (Said × List Instant)

/-- `act` is a step of the queue, `go` a load of the caller. -/
inductive WatchAct (ι V : Type)
  | act (a : Act ι V)
  | len
  | isEmpty
  | go

section Watch

variable {ι V : Type} {s t : St ι V} {w w' : Watched ι V}

/-- What is true of the queue now. -/
def St.instant (s : St ι V) : Instant :=
  ⟨s.pushed.length - s.claimed, offsetOf s.headIndex == blockCap⟩

/-- An empty queue, and nothing said. -/
def Watched.new : Watched ι V := ⟨St.new, .idle, [], []⟩

/-- A call returns its answer. -/
def Watched.say (w : Watched ι V) (said : Said) : Watched ι V :=
  { w with look := .idle, log := (said, w.instants) :: w.log }

/-- A call starts. -/
def Watched.call (w : Watched ι V) (look : Look) : Option (Watched ι V) :=
  if w.look matches .idle then some { w with look := look, instants := [w.queue.instant] } else none

/-- One load of the caller. -/
def watchGo (w : Watched ι V) : Option (Watched ι V) :=
  match w.look with
  | .idle => none
  | .lenTail => some { w with look := .lenHead w.queue.tailIndex }
  | .lenHead tail => some { w with look := .lenAgain tail w.queue.headIndex }
  | .lenAgain tail head =>
    if w.queue.tailIndex = tail then some (w.say (.len (lenOf tail head)))
    else some { w with look := .lenTail }
  | .emptyHead => some { w with look := .emptyTail w.queue.headIndex }
  | .emptyTail head => some (w.say (.isEmpty (head / 2 == w.queue.tailIndex / 2)))

/-- The queue takes a step, or the caller does. -/
def watchStep [DecidableEq ι] (w : Watched ι V) : WatchAct ι V → Option (Watched ι V)
  | .act a => (step w.queue a).map fun s =>
    { w with queue := s, instants := s.instant :: w.instants }
  | .len => w.call .lenTail
  | .isEmpty => w.call .emptyHead
  | .go => watchGo w

/-- The runs of a queue with a caller. -/
def watched [DecidableEq ι] : System (Watched ι V) (WatchAct ι V) :=
  ⟨fun w => w = Watched.new, watchStep⟩

/-- No index comes around. -/
def watchOk (w : Watched ι V) : WatchAct ι V → Prop
  | .act a => indexOk w.queue a
  | _ => True

instance (w : Watched ι V) (a : WatchAct ι V) : Decidable (watchOk w a) := by
  cases a <;> unfold watchOk <;> infer_instance

/-- An answer is true of some instant of the call, except that `is_empty` may answer false when
nothing is unclaimed but a pop moves the head. -/
def Said.Sound (instants : List Instant) : Said → Prop
  | .len n => ∃ x ∈ instants, n = some x.count
  | .isEmpty true => ∃ x ∈ instants, x.count = 0
  | .isEmpty false => ∃ x ∈ instants, 0 < x.count ∨ x.turning = true

/-- What the words that the caller has loaded say. -/
def Look.Fits (s : St ι V) (instants : List Instant) : Look → Prop
  | .idle | .lenTail | .emptyHead => True
  | .lenHead tail => tail ≤ s.tailIndex
  | .lenAgain tail head => tail ≤ s.tailIndex ∧
      (s.tailIndex = tail → (Said.len (lenOf tail head)).Sound instants)
  | .emptyTail head => head ≤ s.headIndex ∧ ((Said.isEmpty false).Sound instants ∨
      s.claimed = s.pushed.length ∧ head / 2 = rank s.claimed)

/-- Every answer is sound. -/
structure WatchInv (w : Watched ι V) : Prop where
  inv : Inv w.queue
  look : w.look matches .idle ∨ w.queue.instant ∈ w.instants ∧ w.look.Fits w.queue w.instants
  log : ∀ p ∈ w.log, p.1.Sound p.2

variable {instants : List Instant}

/-- What was sound stays sound. -/
theorem Said.Sound.cons {said : Said} (h : said.Sound instants)
    (x : Instant) : said.Sound (x :: instants) := by
  cases said with
  | len n =>
    obtain ⟨y, hy, heq⟩ := h
    exact ⟨y, List.mem_cons_of_mem _ hy, heq⟩
  | isEmpty b =>
    cases b <;>
    · obtain ⟨y, hy, hcount⟩ := h
      exact ⟨y, List.mem_cons_of_mem _ hy, hcount⟩

/-- At an instant when `is_empty` must not answer false, the head is at the tail. -/
theorem busy_or_settled (h : Positions s)
    (hmem : s.instant ∈ instants) : (Said.isEmpty false).Sound instants ∨
      s.claimed = s.pushed.length ∧ s.headIndex / 2 = rank s.claimed ∧
        s.tailIndex / 2 = rank s.claimed := by
  have horder := h.order
  by_cases hcount : s.claimed = s.pushed.length
  · by_cases hturning : offsetOf s.headIndex = blockCap
    · exact .inl ⟨_, hmem, .inr (beq_iff_eq.mpr hturning)⟩
    · exact .inr ⟨hcount, h.settled hcount hturning⟩
  · exact .inl ⟨_, hmem, .inl (show 0 < s.pushed.length - s.claimed by omega)⟩

/-- The numbers of messages grow by at most one in a step. -/
theorem Counts.grow {i : ι} (h : Counts s t i) : s.pushed.length ≤ t.pushed.length ∧
    s.claimed ≤ t.claimed ∧ t.pushed.length + t.claimed ≤ s.pushed.length + s.claimed + 1 := by
  cases h with
  | stay hpushed hlength hclaimed => omega
  | claim hpushed | give _ _ hpushed =>
    rw [hpushed]
    omega

/-- A step of the queue is one more instant of the call. -/
theorem Look.Fits.act [DecidableEq ι] {a : Act ι V} {look : Look}
    (h : look.Fits s instants) (hinv : Inv s) (hinv' : Inv t) (hst : step s a = some t) :
    look.Fits t (t.instant :: instants) := by
  obtain ⟨_, _, hahead⟩ := ahead_of_step hinv.positions hst
  cases look with
  | idle | lenTail | emptyHead => trivial
  | lenHead tail => exact h.trans hahead.tail
  | lenAgain tail head =>
    have htail := hahead.tail
    exact ⟨h.1.trans htail, fun heq => (h.2 (by have := h.1; omega)).cons _⟩
  | emptyTail head =>
    refine ⟨h.1.trans hahead.head, ?_⟩
    rcases h.2 with hbusy | ⟨hempty, hhead⟩
    · exact .inl (hbusy.cons _)
    · rcases busy_or_settled hinv'.positions (List.mem_cons_self ..) with hbusy | ⟨hempty', -⟩
      · exact .inl hbusy
      · -- both numbers are equal again after the step, so it has changed neither
        obtain ⟨_, hmove⟩ := move_of_step hinv.positions.claim hst
        have := (counts_of_move hmove).grow
        exact .inr ⟨hempty', by rw [hhead]; congr 1; omega⟩

theorem WatchInv.setLook {look : Look} (h : WatchInv w) (hmem : w.queue.instant ∈ w.instants)
    (hfits : look.Fits w.queue w.instants) : WatchInv { w with look := look } :=
  ⟨h.inv, .inr ⟨hmem, hfits⟩, h.log⟩

theorem WatchInv.say {said : Said} (h : WatchInv w) (hsaid : said.Sound w.instants) :
    WatchInv (w.say said) := by
  refine ⟨h.inv, .inl rfl, fun p hp => ?_⟩
  rcases List.mem_cons.mp hp with rfl | hp
  · exact hsaid
  · exact h.log p hp

theorem WatchInv.call {look : Look} (h : WatchInv w)
    (hst : w.call look = some w') (hfits : look.Fits w.queue [w.queue.instant]) :
    WatchInv w' := by
  unfold Watched.call at hst
  split at hst
  · cases hst
    exact ⟨h.inv, .inr ⟨List.mem_singleton.mpr rfl, hfits⟩, h.log⟩
  · cases hst

/-- `is_empty` answers. -/
theorem isEmpty_sound {head : Nat} (h : Positions s)
    (hmem : s.instant ∈ instants) (hfits : (Look.emptyTail head).Fits s instants) :
    (Said.isEmpty (head / 2 == s.tailIndex / 2)).Sound instants := by
  have hle := h.le
  cases hanswer : head / 2 == s.tailIndex / 2 with
  | true =>
    have heq := beq_iff_eq.mp hanswer
    have := hfits.1
    have hempty := h.claimed_eq (by omega)
    exact ⟨_, hmem, show s.pushed.length - s.claimed = 0 by omega⟩
  | false =>
    rcases hfits.2 with hbusy | ⟨-, hhead⟩
    · exact hbusy
    · rcases busy_or_settled h hmem with hbusy | ⟨-, -, htail⟩
      · exact hbusy
      · rw [hhead, htail, beq_self_eq_true] at hanswer
        cases hanswer

/-- A step of the caller. -/
theorem WatchInv.go (h : WatchInv w) (hst : watchGo w = some w') : WatchInv w' := by
  have hlook := h.look
  cases hpc : w.look with
  | idle => simp [watchGo, hpc] at hst
  | lenTail =>
    simp only [watchGo, hpc] at hst hlook
    cases hst
    exact h.setLook (hlook.resolve_left nofun).1 (Nat.le_refl _)
  | lenHead tail =>
    simp only [watchGo, hpc] at hst hlook
    cases hst
    obtain ⟨hmem, hfits⟩ := hlook.resolve_left nofun
    refine h.setLook hmem ⟨hfits, fun heq => ⟨_, hmem, ?_⟩⟩
    rw [← heq]
    exact h.inv.positions.lenOf_eq
  | lenAgain tail head =>
    simp only [watchGo, hpc] at hst hlook
    obtain ⟨hmem, hfits⟩ := hlook.resolve_left nofun
    split_ifs at hst with hsame <;> cases hst
    · exact h.say (hfits.2 hsame)
    · exact h.setLook hmem trivial
  | emptyHead =>
    simp only [watchGo, hpc] at hst hlook
    cases hst
    obtain ⟨hmem, -⟩ := hlook.resolve_left nofun
    refine h.setLook hmem ⟨Nat.le_refl _, ?_⟩
    exact (busy_or_settled h.inv.positions hmem).imp_right fun hsettled =>
      ⟨hsettled.1, hsettled.2.1⟩
  | emptyTail head =>
    simp only [watchGo, hpc] at hst hlook
    cases hst
    obtain ⟨hmem, hfits⟩ := hlook.resolve_left nofun
    exact h.say (isEmpty_sound h.inv.positions hmem hfits)

/-- **Every action keeps what was said sound.** -/
theorem watchInv_of_step [DecidableEq ι] {a : WatchAct ι V} (h : WatchInv w) (hok : watchOk w a)
    (hst : watchStep w a = some w') : WatchInv w' := by
  cases a with
  | act a =>
    obtain ⟨s, hs, rfl⟩ := Option.map_eq_some_iff.mp hst
    have hinv := inv_of_step h.inv hok hs
    refine ⟨hinv, h.look.imp_right fun hlook => ?_, h.log⟩
    exact ⟨List.mem_cons_self .., hlook.2.act h.inv hinv hs⟩
  | len | isEmpty => exact h.call hst trivial
  | go => exact h.go hst

/-- **Every answer is true of some instant of its call**, while pushes and pops go on. `is_empty`
may answer false of an empty queue, but only while a pop moves the head to the next block. -/
theorem segQueue_len_true [DecidableEq ι] (h : Reach watched watchOk w) :
    ∀ p ∈ w.log, p.1.Sound p.2 := by
  have hinv : WatchInv w := by
    refine h.invariant (fun w hw => ?_) fun w a w' hw hok hst => watchInv_of_step hw hok hst
    cases hw
    exact ⟨core_new.inv positions_new, .inl rfl, nofun⟩
  exact hinv.log

/-- The tail moves while `len` looks, so that it looks again. -/
theorem segQueue_len_true_again : ∃ w : Watched (Fin 2) Nat, Reach watched watchOk w ∧
    (∀ p ∈ w.log, p.1.Sound p.2) ∧
    w.log.map Prod.fst = [.isEmpty true, .isEmpty false, .len (some 1)] := by
  have hnew : Reach watched watchOk (Watched.new : Watched (Fin 2) Nat) := .init rfl
  obtain ⟨w, hw, htest⟩ := hnew.exists_of_run
    (.len :: .go :: .act (.push 0 7) :: List.replicate 7 (.act (.go 0 false)) ++
      [.go, .go, .go, .go, .go, .isEmpty, .go, .act (.pop 1 false)] ++
      List.replicate 4 (.act (.go 1 false)) ++ [.go, .isEmpty, .go, .go])
    (fun w => w.log.map Prod.fst = [.isEmpty true, .isEmpty false, .len (some 1)])
    (by decide +kernel)
  exact ⟨w, hw, segQueue_len_true hw, htest⟩

/-- `n` steps of a call that agent `i` starts with `a`. -/
private def during (a : Act (Fin 2) Nat) (i : Fin 2) (n : Nat) : List (WatchAct (Fin 2) Nat) :=
  .act a :: List.replicate n (.act (.go i false))

/-- A block is filled and emptied, and its last pop has not stored the head yet. -/
example : (run watched watchOk Watched.new
    (during (.push 0 7) 0 7 ++ (List.replicate 29 (during (.push 0 7) 0 5)).flatten ++
      during (.push 0 7) 0 8 ++ during (.pop 1 false) 1 7 ++
      (List.replicate 29 (during (.pop 1 false) 1 6)).flatten ++ during (.pop 1 false) 1 3 ++
      [.isEmpty, .go, .go])).map Watched.log = some [(.isEmpty false, [⟨0, true⟩])] := by
  decide +kernel

end Watch

end Crossfire.SegQueue
