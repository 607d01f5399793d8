import Crossfire.SegQueue.Model

/-!
# The positions of a `SegQueue`

Message `k` has its slot in block `k / 31` at offset `k % 31`, and its index is `k` plus one for
each full block before it (`rank`). The tail is the rank of the number of pushes, except while the
push that filled a block installs the next one: then it is one less, at the end of the block, and
every other push waits. `Tail` lists these phases and `Head` those of the head; `Tracks` says what
an agent knows about them from the words it has loaded. Since the indices only grow, a
compare-exchange that succeeds finds the queue as it was when the index was loaded.
-/

set_option autoImplicit false

namespace Crossfire.SegQueue

open Lib.Interleaving Function

/-! ## Layout -/

/-- The index of message `k`, without the metadata bit. -/
def rank (k : Nat) : Nat := k + k / 31

theorem rank_mod (k : Nat) : rank k % 32 = k % 31 := by unfold rank; omega

theorem rank_div (k : Nat) : rank k / 32 = k / 31 := by unfold rank; omega

/-- Inside a block the ranks follow each other. -/
theorem rank_succ {k : Nat} (h : k % 31 ≠ 30) : rank (k + 1) = rank k + 1 := by
  unfold rank; omega

/-- The rank at the end of a block is skipped. -/
theorem rank_succ_end {k : Nat} (h : k % 31 = 30) : rank (k + 1) = rank k + 2 := by
  unfold rank; omega

theorem rank_lt {k n : Nat} (h : k < n) : rank k < rank n := by unfold rank; omega

theorem rank_le {k n : Nat} (h : k ≤ n) : rank k ≤ rank n := by unfold rank; omega

theorem rank_bound {k : Nat} (h : k ≤ 2 ^ 57) : rank k < 2 ^ 58 := by unfold rank; omega

theorem offsetOf_eq (index : Nat) : offsetOf index = index / 2 % 32 := rfl

theorem lapOf_eq (index : Nat) : lapOf index = index / 2 / 32 := rfl

theorem advance_eq {index : Nat} (h : index / 2 < 2 ^ 60) : advance index = index + 2 := by
  unfold advance; omega

/-- The slot of a claim is the slot of its message. -/
structure Claim.Fits (c : Claim) : Prop where
  block : c.block = c.k / 31
  offset : c.offset = c.k % 31

/-! ## Roles -/

/-- The slot that a call has claimed. -/
def Pc.claim {V : Type} : Pc V → Option Claim
  | .storeBlock _ c _ _ | .storeIndex _ c _ _ | .storeNext _ c _ | .write _ c | .publish c
  | .waitNext _ c _ | .peekNext _ c _ _ | .storeHeadBlock _ c _ _ | .storeHeadIndex _ c _
  | .token c | .waitWrite c | .value c | .mark c _ => some c
  | _ => none

/-- The push that installs a block: its message, and whether `tail.block` is stored. -/
def Pc.tailEdge {V : Type} : Pc V → Option (Bool × Nat)
  | .storeBlock _ c _ _ => some (false, c.k)
  | .storeIndex _ c _ _ => some (true, c.k)
  | _ => none

/-- The pop that moves the head to the next block. -/
def Pc.headEdge {V : Type} : Pc V → Option (Bool × Nat)
  | .waitNext _ c _ | .peekNext _ c _ _ | .storeHeadBlock _ c _ _ => some (false, c.k)
  | .storeHeadIndex _ c _ => some (true, c.k)
  | _ => none

/-- The first push, before it has stored `head.block`. -/
def Pc.first {V : Type} : Pc V → Bool
  | .storeFirst _ _ _ => true
  | _ => false

/-- What an agent does at the end of a block. -/
def Pc.edges {V : Type} (pc : Pc V) : Option (Bool × Nat) × Option (Bool × Nat) × Bool :=
  (pc.tailEdge, pc.headEdge, pc.first)

/-! ## Phases of the tail and of the head -/

/-- The phases of the tail; `edge j` is the push of agent `j` that installs a block. -/
inductive Tail {ι : Type} (pushed installed tailIndex : Nat) (tailBlock : Option Nat)
    (edge : ι → Option (Bool × Nat)) : Prop
  | fresh (hpushed : pushed = 0) (hinstalled : installed = 0) (hindex : tailIndex = 0)
      (hblock : tailBlock = none) (hedge : ∀ j, edge j = none)
  | settled (hinstalled : installed = pushed / 31 + 1) (hindex : tailIndex = 2 * rank pushed)
      (hblock : tailBlock = some (pushed / 31)) (hedge : ∀ j, edge j = none)
  /-- Push `i` is going to store `tail.block` or, if `stored`, `tail.index`. -/
  | edge (i : ι) (stored : Bool) (k : Nat) (hpushed : pushed = k + 1) (hk : k % 31 = 30)
      (hinstalled : installed = pushed / 31 + 1) (hindex : tailIndex = 2 * rank k + 2)
      (hblock : tailBlock = some (if stored then k / 31 + 1 else k / 31))
      (hi : edge i = some (stored, k)) (hedge : ∀ j, j ≠ i → edge j = none)

/-- The phases of the head; `edge j` is the pop of agent `j` that moves it on. -/
inductive Head {ι : Type} (claimed installed headIndex : Nat) (headBlock : Option Nat)
    (edge : ι → Option (Bool × Nat)) (first : ι → Bool) : Prop
  /-- No block, or the first push has not stored it yet. -/
  | fresh (hclaimed : claimed = 0) (hindex : headIndex = 0) (hblock : headBlock = none)
      (hedge : ∀ j, edge j = none)
      (hfirst : installed = 0 ∧ (∀ j, first j = false) ∨
        0 < installed ∧ ∃ i, first i = true ∧ ∀ j, j ≠ i → first j = false)
  | settled (hinstalled : 0 < installed) (hindex : headIndex / 2 = rank claimed)
      (hblock : headBlock = some (claimed / 31)) (hedge : ∀ j, edge j = none)
      (hfirst : ∀ j, first j = false)
  /-- Pop `i` is going to store `head.block` or, if `stored`, `head.index`. -/
  | edge (i : ι) (stored : Bool) (k : Nat) (hclaimed : claimed = k + 1) (hk : k % 31 = 30)
      (hinstalled : 0 < installed) (hindex : headIndex / 2 = rank k + 1)
      (hblock : headBlock = some (if stored then k / 31 + 1 else k / 31))
      (hi : edge i = some (stored, k)) (hedge : ∀ j, j ≠ i → edge j = none)
      (hfirst : ∀ j, first j = false)

section Phases

variable {ι : Type} {pushed claimed installed tailIndex headIndex : Nat}
  {tailBlock headBlock : Option Nat} {edge : ι → Option (Bool × Nat)} {first : ι → Bool} {i : ι}
  {k b : Nat} {stored : Bool}

theorem Tail.index_le (h : Tail pushed installed tailIndex tailBlock edge) :
    tailIndex ≤ 2 * rank pushed := by
  cases h with
  | fresh | settled => omega
  | edge i stored k hpushed hk _ hindex =>
    rw [hpushed, rank_succ_end hk]
    omega

/-- A tail inside a block with a block to push to. -/
theorem Tail.of_block (h : Tail pushed installed tailIndex tailBlock edge)
    (hoffset : offsetOf tailIndex ≠ 31) (hblock : tailBlock = some b) :
    installed = pushed / 31 + 1 ∧ tailIndex = 2 * rank pushed ∧ b = pushed / 31 ∧
      ∀ j, edge j = none := by
  cases h with
  | fresh _ _ _ hnone => rw [hnone] at hblock; cases hblock
  | settled hinstalled hindex hsome hedge =>
    rw [hsome] at hblock
    exact ⟨hinstalled, hindex, (Option.some.inj hblock).symm, hedge⟩
  | edge i stored k _ hk _ hindex =>
    have := rank_mod k
    rw [offsetOf_eq] at hoffset
    omega

/-- Before the first block. -/
theorem Tail.of_none (h : Tail pushed installed tailIndex tailBlock edge)
    (hblock : tailBlock = none) :
    pushed = 0 ∧ installed = 0 ∧ tailIndex = 0 ∧ ∀ j, edge j = none := by
  cases h with
  | fresh hpushed hinstalled hindex _ hedge => exact ⟨hpushed, hinstalled, hindex, hedge⟩
  | settled _ _ hsome | edge _ _ _ _ _ _ _ hsome => rw [hsome] at hblock; cases hblock

/-- An agent at the edge of the tail. -/
theorem Tail.of_edge (h : Tail pushed installed tailIndex tailBlock edge)
    (hi : edge i = some (stored, k)) :
    pushed = k + 1 ∧ k % 31 = 30 ∧ installed = pushed / 31 + 1 ∧ tailIndex = 2 * rank k + 2 ∧
      tailBlock = some (if stored then k / 31 + 1 else k / 31) ∧ ∀ j, j ≠ i → edge j = none := by
  cases h with
  | fresh _ _ _ _ hedge | settled _ _ _ hedge => rw [hedge] at hi; cases hi
  | edge i' stored' k' hpushed hk hinstalled hindex hblock hi' hedge =>
    obtain rfl : i = i' := by
      by_contra hne
      rw [hedge i hne] at hi
      cases hi
    rw [hi', Option.some.injEq, Prod.mk.injEq] at hi
    obtain ⟨rfl, rfl⟩ := hi
    exact ⟨hpushed, hk, hinstalled, hindex, hblock, hedge⟩

/-- The head cannot pass the tail. -/
theorem Tail.claim_le (h : Tail pushed installed tailIndex tailBlock edge)
    (hlt : claimed < pushed) : rank claimed + 1 ≤ tailIndex / 2 := by
  cases h with
  | fresh hpushed => omega
  | settled _ hindex =>
    have := rank_lt hlt
    omega
  | edge i stored k hpushed _ _ hindex =>
    have := rank_le (Nat.le_of_lt_succ (hpushed ▸ hlt))
    omega

/-- A head inside a block with a block to pop from. -/
theorem Head.of_block (h : Head claimed installed headIndex headBlock edge first)
    (hoffset : offsetOf headIndex ≠ 31) (hblock : headBlock = some b) :
    0 < installed ∧ headIndex / 2 = rank claimed ∧ b = claimed / 31 ∧ (∀ j, edge j = none) ∧
      ∀ j, first j = false := by
  cases h with
  | fresh _ _ hnone => rw [hnone] at hblock; cases hblock
  | settled hinstalled hindex hsome hedge hfirst =>
    rw [hsome] at hblock
    exact ⟨hinstalled, hindex, (Option.some.inj hblock).symm, hedge, hfirst⟩
  | edge i stored k _ hk _ hindex =>
    have := rank_mod k
    rw [offsetOf_eq] at hoffset
    omega

/-- An agent at the edge of the head. -/
theorem Head.of_edge (h : Head claimed installed headIndex headBlock edge first)
    (hi : edge i = some (stored, k)) :
    claimed = k + 1 ∧ k % 31 = 30 ∧ 0 < installed ∧ headIndex / 2 = rank k + 1 ∧
      headBlock = some (if stored then k / 31 + 1 else k / 31) ∧ (∀ j, j ≠ i → edge j = none) ∧
        ∀ j, first j = false := by
  cases h with
  | fresh _ _ _ hedge | settled _ _ _ hedge => rw [hedge] at hi; cases hi
  | edge i' stored' k' hclaimed hk hinstalled hindex hblock hi' hedge hfirst =>
    obtain rfl : i = i' := by
      by_contra hne
      rw [hedge i hne] at hi
      cases hi
    rw [hi', Option.some.injEq, Prod.mk.injEq] at hi
    obtain ⟨rfl, rfl⟩ := hi
    exact ⟨hclaimed, hk, hinstalled, hindex, hblock, hedge, hfirst⟩

/-- The first push installs the head block. -/
theorem Head.of_first (h : Head claimed installed headIndex headBlock edge first)
    (hi : first i = true) :
    claimed = 0 ∧ headIndex = 0 ∧ headBlock = none ∧ (∀ j, edge j = none) ∧
      ∀ j, j ≠ i → first j = false := by
  cases h with
  | settled _ _ _ _ hfirst | edge _ _ _ _ _ _ _ _ _ _ hfirst => rw [hfirst] at hi; cases hi
  | fresh hclaimed hindex hblock hedge hfirst =>
    rcases hfirst with ⟨-, hnone⟩ | ⟨-, i', _, hothers⟩
    · rw [hnone] at hi; cases hi
    · obtain rfl : i = i' := by
        by_contra hne
        rw [hothers i hne] at hi
        cases hi
      exact ⟨hclaimed, hindex, hblock, hedge, hothers⟩

/-- A block is installed. -/
theorem Head.install (h : Head claimed installed headIndex headBlock edge first)
    (hpos : 0 < installed) :
    Head claimed (installed + 1) headIndex headBlock edge first := by
  cases h with
  | fresh hclaimed hindex hblock hedge hfirst =>
    refine .fresh hclaimed hindex hblock hedge ?_
    rcases hfirst with ⟨hzero, -⟩ | ⟨-, hone⟩
    · omega
    · exact .inr ⟨Nat.succ_pos _, hone⟩
  | settled hpos hindex hblock hedge hfirst =>
    exact .settled (Nat.succ_pos _) hindex hblock hedge hfirst
  | edge i' stored k hclaimed hk hpos hindex hblock hi hedge hfirst =>
    exact .edge i' stored k hclaimed hk (Nat.succ_pos _) hindex hblock hi hedge hfirst

end Phases

/-! ## What an agent knows from the words it has loaded -/

/-- `pushed` and `claimed` are the numbers of messages pushed and claimed. -/
def Pc.Tracks {V : Type} (tailIndex : Nat) (tailBlock : Option Nat) (headIndex : Nat)
    (headBlock : Option Nat) (pushed claimed : Nat) : Pc V → Prop
  | .loadBlock _ tail => tail ≤ tailIndex
  | .casFirst _ tail => tail = 0
  | .storeFirst _ tail block => tail = 0 ∧ block = 0
  | .cas _ tail block =>
    tail ≤ tailIndex ∧ offsetOf tail ≠ 31 ∧ (tailIndex = tail → tailBlock = some block)
  | .storeBlock _ c next newTail | .storeIndex _ c next newTail =>
    next = c.k / 31 + 1 ∧ newTail = 2 * rank c.k + 2
  | .storeNext _ c next => next = c.block + 1 ∧ 32 * next ≤ tailIndex / 2
  | .finalTail head | .loadHeadBlock _ head => head ≤ headIndex
  | .popTail _ head block =>
    head ≤ headIndex ∧ offsetOf head ≠ 31 ∧ head % 2 = 0 ∧
      ∀ b, block = some b → headIndex = head → headBlock = some b
  | .popCas _ head b newHead =>
    head ≤ headIndex ∧ offsetOf head ≠ 31 ∧ newHead / 2 = head / 2 + 1 ∧
      (headIndex = head → headBlock = some b ∧ claimed < pushed ∧
        (newHead % 2 = 1 → lapOf head < lapOf tailIndex))
  | .waitNext _ _ newHead => newHead = headIndex
  | .peekNext _ c newHead next =>
    newHead = headIndex ∧ next = c.block + 1 ∧ 32 * next ≤ tailIndex / 2
  | .storeHeadBlock _ c next nextIndex =>
    next = c.block + 1 ∧ nextIndex / 2 = 32 * next ∧ 32 * next ≤ tailIndex / 2 ∧
      (nextIndex % 2 = 1 → next < lapOf tailIndex)
  | .storeHeadIndex _ c nextIndex =>
    nextIndex / 2 = 32 * (c.block + 1) ∧ 32 * (c.block + 1) ≤ tailIndex / 2 ∧
      (nextIndex % 2 = 1 → c.block + 1 < lapOf tailIndex)
  | _ => True

section Tracks

variable {V : Type} {pc : Pc V} {tailIndex tailIndex' headIndex headIndex' pushed pushed' claimed
  claimed' : Nat} {tailBlock tailBlock' headBlock headBlock' : Option Nat}

theorem lapOf_le {a b : Nat} (h : a ≤ b) : lapOf a ≤ lapOf b := by
  rw [lapOf_eq, lapOf_eq]
  omega

/-- The tail moves on. -/
theorem Pc.Tracks.moveTail (h : pc.Tracks tailIndex tailBlock headIndex headBlock pushed claimed)
    (hlt : tailIndex < tailIndex') (hle : pushed ≤ pushed') :
    pc.Tracks tailIndex' tailBlock headIndex headBlock pushed' claimed := by
  have hlap : lapOf tailIndex ≤ lapOf tailIndex' := lapOf_le hlt.le
  cases pc with
  | loadBlock v tail => exact h.trans hlt.le
  | cas v tail block =>
    refine ⟨h.1.trans hlt.le, h.2.1, fun heq => ?_⟩
    exact absurd (heq ▸ h.1) (Nat.not_le.mpr hlt)
  | storeNext v c next => exact ⟨h.1, by have := h.2; omega⟩
  | popCas select head b newHead =>
    refine ⟨h.1, h.2.1, h.2.2.1, fun heq => ?_⟩
    obtain ⟨hblock, hlt', hbit⟩ := h.2.2.2 heq
    exact ⟨hblock, hlt'.trans_le hle, fun hodd => (hbit hodd).trans_le hlap⟩
  | peekNext select c newHead next => exact ⟨h.1, h.2.1, by have := h.2.2; omega⟩
  | storeHeadBlock select c next nextIndex =>
    exact ⟨h.1, h.2.1, by have := h.2.2.1; omega, fun hodd => (h.2.2.2 hodd).trans_le hlap⟩
  | storeHeadIndex select c nextIndex =>
    exact ⟨h.1, by have := h.2.1; omega, fun hodd => (h.2.2 hodd).trans_le hlap⟩
  | _ => exact h

/-- The block of the tail changes while no push can claim a slot. -/
theorem Pc.Tracks.setTailBlock
    (h : pc.Tracks tailIndex tailBlock headIndex headBlock pushed claimed)
    (hend : offsetOf tailIndex = 31 ∨ tailIndex = 0 ∧ tailBlock = none) :
    pc.Tracks tailIndex tailBlock' headIndex headBlock pushed claimed := by
  cases pc with
  | cas v tail block =>
    refine ⟨h.1, h.2.1, fun heq => ?_⟩
    rcases hend with hend | ⟨-, hnone⟩
    · exact absurd (heq ▸ hend) h.2.1
    · rw [hnone] at h
      cases h.2.2 heq
  | _ => exact h

/-- The head moves on and no agent is at its edge. -/
theorem Pc.Tracks.moveHead (h : pc.Tracks tailIndex tailBlock headIndex headBlock pushed claimed)
    (hlt : headIndex < headIndex') (hedge : pc.headEdge = none) :
    pc.Tracks tailIndex tailBlock headIndex' headBlock pushed claimed' := by
  cases pc with
  | finalTail | loadHeadBlock => exact h.trans hlt.le
  | popTail select head block =>
    refine ⟨h.1.trans hlt.le, h.2.1, h.2.2.1, fun b _ heq => ?_⟩
    exact absurd (heq ▸ h.1) (Nat.not_le.mpr hlt)
  | popCas select head b newHead =>
    refine ⟨h.1.trans hlt.le, h.2.1, h.2.2.1, fun heq => ?_⟩
    exact absurd (heq ▸ h.1) (Nat.not_le.mpr hlt)
  | waitNext | peekNext => cases hedge
  | _ => exact h

/-- The block of the head changes while no pop can claim a slot. -/
theorem Pc.Tracks.setHeadBlock
    (h : pc.Tracks tailIndex tailBlock headIndex headBlock pushed claimed)
    (hend : offsetOf headIndex = 31 ∨ headBlock = none) :
    pc.Tracks tailIndex tailBlock headIndex headBlock' pushed claimed := by
  cases pc with
  | popTail select head block =>
    refine ⟨h.1, h.2.1, h.2.2.1, fun b hb heq => ?_⟩
    rcases hend with hend | hnone
    · exact absurd (heq ▸ hend) h.2.1
    · have := h.2.2.2 b hb heq
      rw [hnone] at this
      cases this
  | popCas select head b newHead =>
    refine ⟨h.1, h.2.1, h.2.2.1, fun heq => ?_⟩
    rcases hend with hend | hnone
    · exact absurd (heq ▸ hend) h.2.1
    · have := (h.2.2.2 heq).1
      rw [hnone] at this
      cases this
  | _ => exact h

end Tracks

/-! ## The invariant -/

section Invariant

variable {ι V : Type} {s t : St ι V} {i : ι} {pc : Pc V}

/-- The words are the positions of the history, up to the edges. -/
structure Positions (s : St ι V) : Prop where
  bound : s.pushed.length ≤ 2 ^ 57
  order : s.claimed ≤ s.pushed.length
  le : s.headIndex / 2 ≤ s.tailIndex / 2
  bit : s.headIndex % 2 = 1 → lapOf s.headIndex < lapOf s.tailIndex
  tail : Tail s.pushed.length s.installed s.tailIndex s.tailBlock fun j => (s.pc j).tailEdge
  head : Head s.claimed s.installed s.headIndex s.headBlock (fun j => (s.pc j).headEdge)
    fun j => (s.pc j).first
  claim : ∀ j c, (s.pc j).claim = some c → c.Fits
  tracks : ∀ j, (s.pc j).Tracks s.tailIndex s.tailBlock s.headIndex s.headBlock s.pushed.length
    s.claimed
  next : ∀ n m, (s.blocks n).next = some m → m = n + 1 ∧ 32 * m ≤ s.tailIndex / 2

/-- A queue with no block. -/
theorem positions_new : Positions (St.new : St ι V) where
  bound := Nat.zero_le _
  order := Nat.le_refl _
  le := Nat.le_refl _
  bit h := by simp [St.new] at h
  tail := .fresh rfl rfl rfl rfl fun _ => rfl
  head := .fresh rfl rfl rfl (fun _ => rfl) (.inl ⟨rfl, fun _ => rfl⟩)
  claim := nofun
  tracks _ := trivial
  next := nofun

/-- What the agent at `pc` knows. -/
theorem Positions.tracks_at (h : Positions s) (hpc : s.pc i = pc) : pc.Tracks s.tailIndex
    s.tailBlock s.headIndex s.headBlock s.pushed.length s.claimed := hpc ▸ h.tracks i

theorem Positions.tailIndex_lt (h : Positions s) : s.tailIndex / 2 < 2 ^ 60 := by
  have := h.tail.index_le
  have := rank_bound h.bound
  omega

theorem Positions.headIndex_lt (h : Positions s) : s.headIndex / 2 < 2 ^ 60 :=
  h.le.trans_lt h.tailIndex_lt

/-- The words of the queue and its history. -/
def St.words (s : St ι V) : (Nat × Option Nat × Nat × Option Nat) × Nat × Nat × Nat :=
  ((s.headIndex, s.headBlock, s.tailIndex, s.tailBlock), s.installed, s.pushed.length, s.claimed)

/-- The agent keeps its claim. -/
theorem Positions.claim_keep (h : Positions s) (hclaim : pc.claim = (s.pc i).claim) :
    ∀ c, pc.claim = some c → c.Fits := fun c hc => h.claim i c (hclaim ▸ hc)

variable {v : V} {b : Nat}

/-- What holds when a push claims a slot. -/
theorem Positions.at_cas (h : Positions s) (hpc : s.pc i = .cas v s.tailIndex b) :
    s.installed = s.pushed.length / 31 + 1 ∧ s.tailIndex = 2 * rank s.pushed.length ∧
      b = s.pushed.length / 31 ∧ s.tailBlock = some b ∧
      offsetOf s.tailIndex = s.pushed.length % 31 ∧ ∀ j, (s.pc j).tailEdge = none := by
  obtain ⟨-, hoff, hblock⟩ := h.tracks_at hpc
  obtain ⟨hinstalled, hindex, hb, hedge⟩ := h.tail.of_block hoff (hblock rfl)
  refine ⟨hinstalled, hindex, hb, hblock rfl, ?_, hedge⟩
  rw [offsetOf_eq, hindex, Nat.mul_div_cancel_left _ Nat.two_pos, rank_mod]

/-- The tail moves on, and the links stay. -/
theorem Positions.next_of_le {tail : Nat} (h : Positions s) (hle : s.tailIndex ≤ tail) (n m : Nat)
    (hm : (s.blocks n).next = some m) : m = n + 1 ∧ 32 * m ≤ tail / 2 := by
  have := h.next n m hm
  omega

/-- A load is outside the edges. -/
theorem Loads.edges {p q : Pc V} (h : Loads s p q) : q.edges = p.edges ∧ q.claim = p.claim := by
  cases h <;> exact ⟨rfl, rfl⟩

theorem Positions.advance_head {head : Nat} (h : Positions s) (hle : head ≤ s.headIndex) :
    advance head = head + 2 := advance_eq (by have := h.headIndex_lt; omega)

/-- A head inside a block and before the tail has a message to claim. -/
theorem Positions.claimed_lt (h : Positions s) (hoff : offsetOf s.headIndex ≠ 31)
    (hblock : s.headBlock = some b) (hne : s.headIndex / 2 ≠ s.tailIndex / 2) :
    s.claimed < s.pushed.length := by
  obtain ⟨-, hindex, -, -⟩ := h.head.of_block hoff hblock
  have hrank : rank s.claimed < rank s.pushed.length := by
    have := h.tail.index_le
    have := h.le
    omega
  by_contra hge
  exact absurd (rank_le (Nat.le_of_not_lt hge)) (Nat.not_le.mpr hrank)

/-- A read does not concern the positions. -/
theorem destroyPc_facts (b o k : Nat) (msg : Option V) :
    (destroyPc b o k msg).edges = (none, none, false) ∧ (destroyPc b o k msg).claim = none ∧
      ∀ tailIndex tailBlock headIndex headBlock pushed claimed,
        (destroyPc b o k msg).Tracks tailIndex tailBlock headIndex headBlock pushed claimed := by
  unfold destroyPc
  split <;> exact ⟨rfl, rfl, fun _ _ _ _ _ _ => trivial⟩

theorem Looks.edges {p q : Pc V} (h : Looks s p b q) :
    q.edges = p.edges ∧ (q.claim = p.claim ∨ q.claim = none) := by
  cases h with
  | valueLast | pass => exact ⟨(destroyPc_facts ..).1, .inr (destroyPc_facts ..).2.1⟩
  | _ => exact ⟨rfl, .inl rfl⟩

variable {select : Bool} {c : Claim}

/-- The next block is there. -/
theorem Positions.peekNext {newHead next : Nat} (h : Positions s)
    (hpc : s.pc i = .peekNext select c newHead next) :
    (.storeHeadBlock select c next (if (s.blocks next).next.isSome then
      setNext (advance (clearNext newHead)) else advance (clearNext newHead)) : Pc V).Tracks
      s.tailIndex s.tailBlock s.headIndex s.headBlock s.pushed.length s.claimed := by
  obtain ⟨rfl, hnext, hle⟩ := h.tracks_at hpc
  have hclaim := h.claim i c (by rw [hpc]; rfl)
  obtain ⟨-, hk, -, hindex, -⟩ := h.head.of_edge (i := i) (by rw [hpc]; rfl)
  have hadv : advance (clearNext s.headIndex) = 2 * (32 * next) := by
    have := h.headIndex_lt
    have := rank_div c.k
    have := rank_mod c.k
    have := hclaim.block
    rw [advance_eq (by unfold clearNext; omega)]
    unfold clearNext
    omega
  rw [hadv]
  refine ⟨hnext, by unfold setNext; split <;> omega, hle, fun hodd => ?_⟩
  split at hodd
  · next hsome =>
      obtain ⟨m, hm⟩ := Option.isSome_iff_exists.mp hsome
      have := h.next _ _ hm
      rw [lapOf_eq]
      omega
  · omega

variable [DecidableEq ι]

/-- An update of one agent's `claim`. -/
theorem Positions.claim_update (h : Positions s) (hclaim : ∀ c, pc.claim = some c → c.Fits) :
    ∀ j c, (update s.pc i pc j).claim = some c → c.Fits :=
  forall_phase (P := fun pc : Pc V => ∀ c, pc.claim = some c → c.Fits) (fun j _ => h.claim j) hclaim

/-- An agent moves on inside a phase, and no word changes. -/
theorem Positions.move (h : Positions s) (hpc : t.pc = update s.pc i pc)
    (hwords : t.words = s.words) (hnext : ∀ n, (t.blocks n).next = (s.blocks n).next)
    (hedges : pc.edges = (s.pc i).edges) (hclaim : ∀ c, pc.claim = some c → c.Fits)
    (htracks : pc.Tracks s.tailIndex s.tailBlock s.headIndex s.headBlock s.pushed.length
      s.claimed) : Positions t := by
  simp only [St.words, Prod.mk.injEq] at hwords
  obtain ⟨⟨hhi, hhb, hti, htb⟩, hin, hpu, hcl⟩ := hwords
  obtain ⟨htail, hhead, hfirst⟩ : _ ∧ _ ∧ _ := by
    simpa only [Pc.edges, Prod.mk.injEq] using hedges
  refine ⟨by rw [hpu]; exact h.bound, by rw [hpu, hcl]; exact h.order,
    by rw [hhi, hti]; exact h.le, by rw [hhi, hti]; exact h.bit, ?_, ?_, ?_, ?_, ?_⟩
  · rw [hpu, hin, hti, htb, hpc, map_update_of_eq (f := Pc.tailEdge) htail]
    exact h.tail
  · rw [hcl, hin, hhi, hhb, hpc, map_update_of_eq (f := Pc.headEdge) hhead,
      map_update_of_eq (f := Pc.first) hfirst]
    exact h.head
  · rw [hpc]
    exact h.claim_update hclaim
  · rw [hpc, hti, htb, hhi, hhb, hpu, hcl]
    exact forall_phase (fun j _ => h.tracks j) htracks
  · simp only [hnext, hti]
    exact h.next

/-! ## The steps that change a word -/

/-- The phase of the tail stays. -/
theorem Positions.tail_keep (h : Positions s) (hedge : pc.tailEdge = (s.pc i).tailEdge) :
    Tail s.pushed.length s.installed s.tailIndex s.tailBlock
      fun j => (update s.pc i pc j).tailEdge := by
  rw [map_update_of_eq (f := Pc.tailEdge) hedge]
  exact h.tail

/-- The phase of the head stays. -/
theorem Positions.head_keep (h : Positions s) (hedge : pc.edges.2 = (s.pc i).edges.2) :
    Head s.claimed s.installed s.headIndex s.headBlock (fun j => (update s.pc i pc j).headEdge)
      fun j => (update s.pc i pc j).first := by
  rw [map_update_of_eq (f := Pc.headEdge) (congrArg Prod.fst hedge),
    map_update_of_eq (f := Pc.first) (congrArg Prod.snd hedge)]
  exact h.head

/-- The first push installs its block. -/
theorem Positions.casFirst {tail : Nat} (h : Positions s) (hpc : s.pc i = .casFirst v tail)
    (hnone : s.tailBlock = none) :
    Positions { s with
      tailBlock := some s.installed
      installed := s.installed + 1
      pc := update s.pc i (.storeFirst v tail s.installed) } := by
  obtain ⟨hpushed, hinstalled, hindex, hedge⟩ := h.tail.of_none hnone
  have htail : tail = 0 := h.tracks_at hpc
  refine ⟨h.bound, h.order, h.le, h.bit, ?_, ?_, h.claim_update nofun, ?_, h.next⟩
  · rw [map_update_of_eq (f := Pc.tailEdge) (by rw [hpc]; rfl), hpushed, hinstalled, hindex]
    exact .settled rfl rfl rfl hedge
  · rw [map_update_of_eq (f := Pc.headEdge) (by rw [hpc]; rfl), map_update]
    cases h.head with
    | settled hpos | edge _ _ _ _ _ hpos =>
      exact absurd hpos (by rw [hinstalled]; exact Nat.lt_irrefl 0)
    | fresh hclaimed hindex hblock hedge hfirst =>
      refine .fresh hclaimed hindex hblock hedge
        (.inr ⟨Nat.succ_pos _, i, update_self .., fun j hj => ?_⟩)
      rw [update_of_ne hj]
      rcases hfirst with ⟨-, hnone⟩ | ⟨hpos, -⟩
      · exact hnone j
      · exact absurd hpos (by rw [hinstalled]; exact Nat.lt_irrefl 0)
  · refine forall_phase (fun j _ => ?_) ⟨htail, hinstalled⟩
    exact (h.tracks j).setTailBlock (.inr ⟨hindex, hnone⟩)

/-- The first push stores `head.block`. -/
theorem Positions.storeFirst {tail b : Nat} (h : Positions s)
    (hpc : s.pc i = .storeFirst v tail b) :
    Positions { s with
      headBlock := some b, pc := update s.pc i (.cas v tail b) } := by
  obtain ⟨htail, rfl⟩ : tail = 0 ∧ b = 0 := h.tracks_at hpc
  obtain ⟨hclaimed, hindex, hnone, hedge, hfirst⟩ := h.head.of_first (i := i) (by rw [hpc]; rfl)
  have hpos : 0 < s.installed ∧ (s.tailIndex = 0 → s.tailBlock = some 0) := by
    cases h.head with
    | settled _ _ hblock | edge _ _ _ _ _ _ _ hblock => rw [hnone] at hblock; cases hblock
    | fresh _ _ _ _ hfirst =>
      rcases hfirst with ⟨-, hnone⟩ | ⟨hpos, -⟩
      · have := hnone i
        rw [hpc] at this
        cases this
      · refine ⟨hpos, fun hzero => ?_⟩
        cases h.tail with
        | fresh | edge => omega
        | settled _ hindex hblock =>
          have : s.pushed.length = 0 := by rw [hzero, rank] at hindex; omega
          rw [hblock, this]
  refine ⟨h.bound, h.order, h.le, h.bit, ?_, ?_, h.claim_update nofun, ?_, h.next⟩
  · exact h.tail_keep (by rw [hpc]; rfl)
  · rw [map_update_of_eq (f := Pc.headEdge) (by rw [hpc]; rfl), map_update, hclaimed]
    refine .settled hpos.1 (by rw [hindex]; rfl) rfl hedge fun j => ?_
    by_cases hj : j = i
    · rw [hj, update_self]
      rfl
    · rw [update_of_ne hj]
      exact hfirst j hj
  · refine forall_phase (fun j _ => ?_) ?_
    · exact (h.tracks j).setHeadBlock (.inr hnone)
    · exact ⟨by omega, by rw [htail]; decide, fun heq => hpos.2 (heq.trans htail)⟩

/-- A push claims a slot inside a block. -/
theorem Positions.cas {tail b : Nat} (h : Positions s) (hpc : s.pc i = .cas v tail b)
    (hbound : s.pushed.length < 2 ^ 57) (htail : s.tailIndex = tail)
    (hoffset : offsetOf tail + 1 ≠ blockCap) :
    Positions { s with
      tailIndex := advance tail
      pushed := s.pushed ++ [v]
      pc := update s.pc i (.write v ⟨b, offsetOf tail, s.pushed.length⟩) } := by
  subst htail
  obtain ⟨hinstalled, hindex, rfl, hblock, hmod, hedge⟩ := h.at_cas hpc
  have hin : s.pushed.length % 31 ≠ 30 := by
    rw [hmod] at hoffset
    simpa [blockCap, lap] using hoffset
  have hadv : advance s.tailIndex = 2 * rank (s.pushed.length + 1) := by
    rw [advance_eq h.tailIndex_lt, rank_succ hin, hindex]
    omega
  have hlt : s.tailIndex < advance s.tailIndex := by
    rw [hadv, rank_succ hin]
    omega
  have hlength : (s.pushed ++ [v]).length = s.pushed.length + 1 := List.length_append
  refine ⟨by rw [hlength]; omega, by rw [hlength]; exact h.order.trans (Nat.le_succ _),
    by have := h.le; simp only; omega, fun hodd => (h.bit hodd).trans_le (lapOf_le hlt.le), ?_,
    h.head_keep (by rw [hpc]; rfl), h.claim_update ?_, ?_, h.next_of_le hlt.le⟩
  · rw [map_update_of_eq (f := Pc.tailEdge) (by rw [hpc]; rfl), hlength, hadv]
    have hdiv : (s.pushed.length + 1) / 31 = s.pushed.length / 31 := by omega
    exact .settled (hdiv ▸ hinstalled) rfl (by rw [hblock, hdiv]) hedge
  · rintro c ⟨⟩
    exact ⟨rfl, hmod⟩
  · rw [hlength]
    exact forall_phase (fun j _ => (h.tracks j).moveTail hlt (Nat.le_succ _)) trivial

/-- A push claims the last slot of a block and is going to install the next block. -/
theorem Positions.casLast {tail b : Nat} (h : Positions s) (hpc : s.pc i = .cas v tail b)
    (hbound : s.pushed.length < 2 ^ 57) (htail : s.tailIndex = tail)
    (hoffset : offsetOf tail + 1 = blockCap) :
    Positions { s with
      tailIndex := advance tail
      pushed := s.pushed ++ [v]
      installed := s.installed + 1
      pc := update s.pc i
        (.storeBlock v ⟨b, offsetOf tail, s.pushed.length⟩ s.installed (advance tail)) } := by
  subst htail
  obtain ⟨hinstalled, hindex, rfl, hblock, hmod, hedge⟩ := h.at_cas hpc
  have hin : s.pushed.length % 31 = 30 := by
    rw [hmod] at hoffset
    simpa [blockCap, lap] using hoffset
  have hadv : advance s.tailIndex = 2 * rank s.pushed.length + 2 := by
    rw [advance_eq h.tailIndex_lt, hindex]
  have hlt : s.tailIndex < advance s.tailIndex := by omega
  have hlength : (s.pushed ++ [v]).length = s.pushed.length + 1 := List.length_append
  refine ⟨by rw [hlength]; omega, by rw [hlength]; exact h.order.trans (Nat.le_succ _),
    by have := h.le; simp only; omega, fun hodd => (h.bit hodd).trans_le (lapOf_le hlt.le), ?_,
    (h.head_keep (by rw [hpc]; rfl)).install (by omega), h.claim_update ?_, ?_,
    h.next_of_le hlt.le⟩
  · rw [map_update, hlength]
    have hdiv : (s.pushed.length + 1) / 31 = s.pushed.length / 31 + 1 := by omega
    exact .edge i false s.pushed.length rfl hin (by rw [hdiv, hinstalled]) hadv hblock
      (update_self ..) fun j hj => (update_of_ne hj ..).trans (hedge j)
  · rintro c ⟨⟩
    exact ⟨rfl, hmod⟩
  · rw [hlength]
    exact forall_phase (fun j _ => (h.tracks j).moveTail hlt (Nat.le_succ _)) ⟨hinstalled, hadv⟩

/-- `tail.block` is stored. -/
theorem Positions.storeBlock {next newTail : Nat} (h : Positions s)
    (hpc : s.pc i = .storeBlock v c next newTail) :
    Positions { s with
      tailBlock := some next
      pc := update s.pc i (.storeIndex v c next newTail) } := by
  obtain ⟨hnext, hnew⟩ := h.tracks_at hpc
  obtain ⟨hpushed, hk, hinstalled, hindex, -, hedge⟩ :=
    h.tail.of_edge (i := i) (by rw [hpc]; rfl)
  have hend : offsetOf s.tailIndex = 31 := by
    have := rank_mod c.k
    rw [offsetOf_eq]
    omega
  refine ⟨h.bound, h.order, h.le, h.bit, ?_, ?_,
    h.claim_update (h.claim_keep (by rw [hpc]; rfl)), ?_, h.next⟩
  · rw [map_update]
    exact .edge i true c.k hpushed hk hinstalled hindex (by rw [hnext]; rfl) (update_self ..)
      fun j hj => (update_of_ne hj ..).trans (hedge j hj)
  · exact h.head_keep (by rw [hpc]; rfl)
  · exact forall_phase (fun j _ => (h.tracks j).setTailBlock (.inl hend)) ⟨hnext, hnew⟩

/-- `tail.index` is stored. -/
theorem Positions.storeIndex {next newTail : Nat} (h : Positions s)
    (hpc : s.pc i = .storeIndex v c next newTail) :
    Positions { s with
      tailIndex := advance newTail
      pc := update s.pc i (.storeNext v c next) } := by
  obtain ⟨hnext, hnew⟩ := h.tracks_at hpc
  have hclaim := h.claim i c (by rw [hpc]; rfl)
  obtain ⟨hpushed, hk, hinstalled, hindex, hblock, hedge⟩ :=
    h.tail.of_edge (i := i) (by rw [hpc]; rfl)
  have hadv : advance newTail = 2 * rank s.pushed.length := by
    rw [hnew, ← hindex, advance_eq h.tailIndex_lt, hpushed, rank_succ_end hk, hindex]
    omega
  have hlt : s.tailIndex < advance newTail := by
    rw [hadv, hpushed, rank_succ_end hk]
    omega
  refine ⟨h.bound, h.order, by have := h.le; simp only; omega,
    fun hodd => (h.bit hodd).trans_le (lapOf_le hlt.le), ?_, ?_,
    h.claim_update (h.claim_keep (by rw [hpc]; rfl)), ?_, h.next_of_le hlt.le⟩
  · rw [map_update, hadv]
    refine .settled hinstalled rfl (by rw [hblock, hpushed]; congr 1; simp only [if_true]; omega)
      fun j => ?_
    by_cases hj : j = i
    · rw [hj, update_self]
      rfl
    · rw [update_of_ne hj]
      exact hedge j hj
  · exact h.head_keep (by rw [hpc]; rfl)
  · refine forall_phase (fun j _ => (h.tracks j).moveTail hlt (Nat.le_refl _))
      ⟨by rw [hclaim.block, hnext], ?_⟩
    show 32 * next ≤ advance newTail / 2
    have := rank_div s.pushed.length
    rw [hnext, hadv]
    omega

/-- `next` is stored. -/
theorem Positions.storeNext {next : Nat} (h : Positions s) (hpc : s.pc i = .storeNext v c next) :
    Positions (s.access c.block { s.blocks c.block with next := some next } i (.write v c)) := by
  obtain ⟨hnext, hle⟩ := h.tracks_at hpc
  have hclaim := h.claim i c (by rw [hpc]; rfl)
  have hmove : Positions (s.setPc i (.write v c)) :=
    h.move rfl rfl (fun _ => rfl) (by rw [hpc]; rfl) (by rintro _ ⟨⟩; exact hclaim) trivial
  refine { hmove with next := fun n m hm => ?_ }
  by_cases hn : n = c.block
  · subst hn
    simp only [St.access, update_self, Option.some.injEq] at hm
    subst hm
    exact ⟨hnext, hle⟩
  · simp only [St.access, update_of_ne hn] at hm
    exact h.next n m hm

/-- A pop claims a slot. -/
theorem Positions.popCas {head b newHead : Nat} (h : Positions s)
    (hpc : s.pc i = .popCas select head b newHead) (hhead : s.headIndex = head) :
    Positions { s with
      headIndex := newHead
      claimed := s.claimed + 1
      pc := update s.pc i
        (if offsetOf head + 1 = blockCap then .waitNext select ⟨b, offsetOf head, s.claimed⟩ newHead
        else gotPc select ⟨b, offsetOf head, s.claimed⟩) } := by
  subst hhead
  obtain ⟨-, hoff, hnew, hload⟩ := h.tracks_at hpc
  obtain ⟨hblock, hlt, hbit⟩ := hload rfl
  obtain ⟨hpos, hindex, rfl, hedge, hfirst⟩ := h.head.of_block hoff hblock
  have hmod : offsetOf s.headIndex = s.claimed % 31 := by rw [offsetOf_eq, hindex, rank_mod]
  have hfits : (⟨s.claimed / 31, offsetOf s.headIndex, s.claimed⟩ : Claim).Fits := ⟨rfl, hmod⟩
  have hgt : s.headIndex < newHead := by omega
  have hothers (j : ι) : (s.pc j).Tracks s.tailIndex s.tailBlock newHead s.headBlock
      s.pushed.length (s.claimed + 1) := (h.tracks j).moveHead hgt (hedge j)
  have hle : newHead / 2 ≤ s.tailIndex / 2 := by
    have := h.tail.claim_le hlt
    omega
  have hodd (hone : newHead % 2 = 1) : lapOf newHead < lapOf s.tailIndex := by
    have := hbit hone
    rw [offsetOf_eq] at hoff
    rw [lapOf_eq] at this ⊢
    omega
  -- the claim of the last slot leaves the head on the edge of the block
  by_cases hlast : offsetOf s.headIndex + 1 = blockCap
  · have hin : s.claimed % 31 = 30 := by
      rw [hmod] at hlast
      simpa [blockCap, lap] using hlast
    simp only [if_pos hlast]
    refine ⟨h.bound, hlt, hle, hodd, ?_, ?_, h.claim_update ?_, ?_, h.next⟩
    · exact h.tail_keep (by rw [hpc]; rfl)
    · rw [map_update, map_update_of_eq (f := Pc.first) (by rw [hpc]; rfl)]
      exact .edge i false s.claimed rfl hin hpos (by rw [hnew, hindex]) hblock (update_self ..)
        (fun j hj => (update_of_ne hj ..).trans (hedge j)) hfirst
    · rintro c ⟨⟩
      exact hfits
    · exact forall_phase (fun j _ => hothers j) rfl
  · have hin : s.claimed % 31 ≠ 30 := by
      rw [hmod] at hlast
      simpa [blockCap, lap] using hlast
    simp only [if_neg hlast]
    refine ⟨h.bound, hlt, hle, hodd, ?_, ?_, h.claim_update ?_, ?_, h.next⟩
    · exact h.tail_keep (by rw [hpc]; cases select <;> rfl)
    · rw [map_update_of_eq (f := Pc.headEdge) (by rw [hpc]; cases select <;> rfl),
        map_update_of_eq (f := Pc.first) (by rw [hpc]; cases select <;> rfl)]
      have hdiv : (s.claimed + 1) / 31 = s.claimed / 31 := by omega
      exact .settled hpos (by rw [hnew, hindex, rank_succ hin]) (by rw [hblock, hdiv]) hedge hfirst
    · cases select <;> · rintro c ⟨⟩; exact hfits
    · exact forall_phase (fun j _ => hothers j)
        (by cases select <;> trivial)

/-- `head.block` is stored. -/
theorem Positions.storeHeadBlock {next nextIndex : Nat} (h : Positions s)
    (hpc : s.pc i = .storeHeadBlock select c next nextIndex) :
    Positions { s with
      headBlock := some next
      pc := update s.pc i (.storeHeadIndex select c nextIndex) } := by
  obtain ⟨rfl, hnew, hle, hbit⟩ := h.tracks_at hpc
  have hclaim := h.claim i c (by rw [hpc]; rfl)
  obtain ⟨hclaimed, hk, hpos, hindex, -, hedge, hfirst⟩ :=
    h.head.of_edge (i := i) (by rw [hpc]; rfl)
  have hend : offsetOf s.headIndex = 31 := by
    have := rank_mod c.k
    rw [offsetOf_eq]
    omega
  refine ⟨h.bound, h.order, h.le, h.bit, ?_, ?_,
    h.claim_update (h.claim_keep (by rw [hpc]; rfl)), ?_, h.next⟩
  · exact h.tail_keep (by rw [hpc]; rfl)
  · rw [map_update, map_update_of_eq (f := Pc.first) (by rw [hpc]; rfl)]
    exact .edge i true c.k hclaimed hk hpos hindex (by rw [hclaim.block]; rfl) (update_self ..)
      (fun j hj => (update_of_ne hj ..).trans (hedge j hj)) hfirst
  · exact forall_phase (fun j _ => (h.tracks j).setHeadBlock (.inl hend)) ⟨hnew, hle, hbit⟩

/-- `head.index` is stored. -/
theorem Positions.storeHeadIndex {nextIndex : Nat} (h : Positions s)
    (hpc : s.pc i = .storeHeadIndex select c nextIndex) :
    Positions { s with
      headIndex := nextIndex, pc := update s.pc i (gotPc select c) } := by
  obtain ⟨hnew, hle, hbit⟩ := h.tracks_at hpc
  have hclaim := h.claim i c (by rw [hpc]; rfl)
  obtain ⟨hclaimed, hk, hpos, hindex, hblock, hedge, hfirst⟩ :=
    h.head.of_edge (i := i) (by rw [hpc]; rfl)
  have hrank : nextIndex / 2 = rank s.claimed := by
    have := rank_div (c.k + 1)
    have := rank_mod (c.k + 1)
    rw [hnew, hclaim.block, hclaimed]
    omega
  have hgt : s.headIndex < nextIndex := by
    rw [hclaimed, rank_succ_end hk] at hrank
    omega
  refine ⟨h.bound, h.order, by simp only; omega, fun hodd => ?_, ?_, ?_, h.claim_update ?_, ?_,
    h.next⟩
  · have := hbit hodd
    simp only [lapOf_eq] at this ⊢
    omega
  · exact h.tail_keep (by rw [hpc]; cases select <;> rfl)
  · rw [map_update, map_update_of_eq (f := Pc.first) (by rw [hpc]; cases select <;> rfl)]
    have hdiv : s.claimed / 31 = c.k / 31 + 1 := by omega
    refine .settled hpos hrank (by rw [hblock, hdiv]; rfl) (fun j => ?_) hfirst
    by_cases hj : j = i
    · rw [hj, update_self]
      cases select <;> rfl
    · rw [update_of_ne hj]
      exact hedge j hj
  · cases select <;> · rintro c ⟨⟩; exact hclaim
  · refine forall_phase (fun j hj => ?_) (by cases select <;> trivial)
    exact (h.tracks j).moveHead hgt (hedge j hj)

/-! ## Every step -/

variable {block : Block V}

theorem access_next {b n : Nat} (hnext : block.next = (s.blocks b).next) :
    ((s.access b block i pc).blocks n).next = (s.blocks n).next := by
  by_cases hn : n = b
  · rw [hn, ← hnext]
    simp only [St.access, update_self]
  · simp only [St.access, update_of_ne hn]

/-- An agent takes a step outside the edges and changes no word and no `next`. -/
theorem Positions.access (h : Positions s)
    (hnext : block.next = (s.blocks b).next) (hedges : pc.edges = (s.pc i).edges)
    (hclaim : ∀ c, pc.claim = some c → c.Fits)
    (htracks : pc.Tracks s.tailIndex s.tailBlock s.headIndex s.headBlock s.pushed.length
      s.claimed) : Positions (s.access b block i pc) :=
  h.move rfl rfl (fun _ => access_next hnext) hedges hclaim htracks

theorem Positions.setPc (h : Positions s) (hedges : pc.edges = (s.pc i).edges)
    (hclaim : ∀ c, pc.claim = some c → c.Fits)
    (htracks : pc.Tracks s.tailIndex s.tailBlock s.headIndex s.headBlock s.pushed.length
      s.claimed) : Positions (s.setPc i pc) :=
  h.move rfl rfl (fun _ => rfl) hedges hclaim htracks

/-- A load of an index or a pointer. -/
theorem Positions.loads (h : Positions s) (hloads : Loads s (s.pc i) pc) :
    Positions (s.setPc i pc) := by
  refine h.setPc hloads.edges.1 (h.claim_keep hloads.edges.2) ?_
  have htracks := h.tracks i
  generalize s.pc i = p at hloads htracks
  cases hloads with
  | loadTail | casFails | finalHead | loadHead | popFails => exact Nat.le_refl _
  | noBlock v tail hnone =>
    obtain ⟨-, -, hzero, -⟩ := h.tail.of_none hnone
    exact Nat.le_zero.mp (hzero ▸ htracks)
  | loadBlock v tail b hoff hblock => exact ⟨htracks, hoff, fun _ => hblock⟩
  | finalTail head => exact htracks
  | headNext select head b hoff hnext hblock =>
    -- the head says that the tail is in a later block
    rw [h.advance_head htracks] at hnext ⊢
    have hodd : head % 2 = 1 := by
      have : (head + 2) % 2 = 1 := by simpa only [hasNext, beq_iff_eq] using hnext
      omega
    refine ⟨htracks, hoff, by omega, fun heq => ?_⟩
    have hlap : lapOf s.headIndex < lapOf s.tailIndex := h.bit (heq ▸ hodd)
    refine ⟨hblock, h.claimed_lt (heq ▸ hoff) hblock fun hsame => ?_, fun _ => heq ▸ hlap⟩
    rw [lapOf_eq, lapOf_eq, hsame] at hlap
    exact Nat.lt_irrefl _ hlap
  | loadHeadBlock select head hoff hnext =>
    rw [h.advance_head htracks] at hnext
    have heven : head % 2 = 0 := by
      have : ¬ (head + 2) % 2 = 1 := by simpa [hasNext] using hnext
      omega
    exact ⟨htracks, hoff, heven, fun b hb _ => hb⟩
  | popTail select head b hne =>
    obtain ⟨hle, hoff, heven, hload⟩ := htracks
    rw [h.advance_head hle]
    refine ⟨hle, hoff, by unfold setNext; split <;> omega, fun heq => ⟨hload b rfl heq,
      h.claimed_lt (heq ▸ hoff) (hload b rfl heq) (heq ▸ hne), fun hodd => ?_⟩⟩
    split at hodd
    · next hlap =>
        refine Nat.lt_of_le_of_ne ?_ hlap
        have := h.le
        rw [lapOf_eq, lapOf_eq, ← heq]
        omega
    · omega
  | _ => trivial

/-- A look at a block. -/
theorem Positions.looks (h : Positions s) (hlooks : Looks s (s.pc i) b pc) :
    Positions (s.access b (s.blocks b) i pc) := by
  refine h.access rfl hlooks.edges.1 (fun c hc => ?_) ?_
  · rcases hlooks.edges.2 with hsame | hnone
    · exact h.claim_keep hsame c hc
    · rw [hnone] at hc
      cases hc
  · generalize hpc : s.pc i = p at hlooks
    cases hlooks with
    | noNext => exact h.tracks_at hpc
    | waitNext select c newHead next hnext => exact ⟨h.tracks_at hpc, h.next _ _ hnext⟩
    | peekNext => exact h.peekNext hpc
    | valueLast | pass => exact (destroyPc_facts ..).2.2 ..
    | _ => trivial

theorem Positions.destroyPc {b n o k : Nat} {msg : Option V} (h : Positions s)
    (hnext : block.next = (s.blocks b).next) (hedges : (s.pc i).edges = (none, none, false)) :
    Positions (s.access b block i (destroyPc n o k msg)) := by
  obtain ⟨hedges', hclaim, htracks⟩ := destroyPc_facts n o k msg
  refine h.access hnext (hedges'.trans hedges.symm) (fun c hc => ?_) (htracks _ _ _ _ _ _)
  rw [hclaim] at hc
  cases hc

theorem give_access {b k : Nat} {msg : Option V} :
    ((s.access b block i .idle).give i k msg).pc = update s.pc i .idle :=
  update_idem ..

/-- A read ends. -/
theorem Positions.give {b k : Nat} {msg : Option V} (h : Positions s)
    (hnext : block.next = (s.blocks b).next) (hedges : (s.pc i).edges = (none, none, false)) :
    Positions ((s.access b block i .idle).give i k msg) :=
  h.move give_access rfl
    (fun n => show ((s.access b block i .idle).blocks n).next = _ from access_next hnext)
    hedges.symm nofun trivial

/-- **A step of a call keeps the positions.** -/
theorem Positions.goes (h : Positions s) (hbound : s.pushed.length < 2 ^ 57) (hgoes : Goes s i t) :
    Positions t := by
  cases hgoes with
  | loads pc hloads => exact h.loads hloads
  | looks b pc hlooks => exact h.looks hlooks
  | casFirst v tail hpc hnone => exact h.casFirst hpc hnone
  | storeFirst v tail b hpc => exact h.storeFirst hpc
  | cas v tail b hpc htail hin => exact h.cas hpc hbound htail hin
  | casLast v tail b hpc htail hlast => exact h.casLast hpc hbound htail hlast
  | storeBlock v c next newTail hpc => exact h.storeBlock hpc
  | storeIndex v c next newTail hpc => exact h.storeIndex hpc
  | storeNext v c next hpc => exact h.storeNext hpc
  | write v c hpc =>
    exact h.access rfl (by rw [hpc]; rfl) (h.claim_keep (by rw [hpc]; rfl)) trivial
  | publish c hpc => exact h.access rfl (by rw [hpc]; rfl) nofun trivial
  | popCas select head b newHead hpc hhead => exact h.popCas hpc hhead
  | storeHeadBlock select c next nextIndex hpc => exact h.storeHeadBlock hpc
  | storeHeadIndex select c nextIndex hpc => exact h.storeHeadIndex hpc
  | resume _ _ hpc | passMark _ _ _ _ hpc => exact h.destroyPc rfl (by rw [hpc]; rfl)
  | mark _ _ hpc | leave _ _ _ _ hpc | free _ _ _ hpc => exact h.give rfl (by rw [hpc]; rfl)

/-- **Every action keeps the positions.** -/
theorem Positions.step {a : Act ι V} (h : Positions s) (hok : indexOk s a)
    (hst : step s a = some t) : Positions t := by
  rcases step_cases hst with ⟨pc, hidle, hstarts, rfl⟩ | hgoes
  · cases pc with
    | loadTail | emptyHead | finalHead | loadHead =>
      exact h.setPc (by rw [hidle]; rfl) nofun trivial
    | _ => cases hstarts
  · exact h.goes hok hgoes

end Invariant

end Crossfire.SegQueue
