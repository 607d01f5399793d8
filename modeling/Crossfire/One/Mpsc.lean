import Crossfire.Lib.Interleaving
import Crossfire.Lib.Packed
import Crossfire.Lib.Fifo
import Crossfire.Lib.Slots

/-!
# `OneMpsc`: a queue of capacity one for many producers and one consumer

`one_mpsc.rs` at the granularity of atomic operations and slot accesses. A pusher claims a position
by its compare-exchange on `pos` and then writes its slot without looking at the stamp. The consumer
releases the position by a plain store to `pos` and then waits for the stamp of its slot. Between a
claim and the write any number of steps of others can happen.

The history numbers the messages by their compare-exchange. `oneMpsc_isFifo` is the refinement of a
queue of capacity one.
-/

set_option autoImplicit false

namespace Crossfire.One.Mpsc

open Lib.Interleaving Lib.Packed Lib.Fifo Lib.Slots Function

/-- Program counter of a pusher in `_try_push` and `Slot::write`. -/
inductive TxPc (V : Type)
  | idle
  | load (v : V)
  /-- `head == tail` in `pos`. -/
  | cas (v : V) (pos : Nat)
  /-- `Slot::write`: the value; `k` is the number of the message. -/
  | write (v : V) (tail k : Nat)
  /-- `Slot::write`: the stamp. -/
  | stamp (v : V) (tail k : Nat)

/-- What `_start_read` returns, with its history. -/
structure Token where
  index : Nat
  tail : Nat
  /-- The number of the message it was issued for. -/
  k : Nat
  /-- The word that was loaded. -/
  pos : Nat
  deriving DecidableEq

/-- Program counter of the consumer. -/
inductive RxPc
  | idle
  /-- `_start_read`, for `_pop` or for a token. -/
  | load (select : Bool)
  /-- `_read`: the store to `pos`. -/
  | store (t : Token)
  /-- `Slot::read`: the stamp. -/
  | wait (t : Token)
  /-- `Slot::read`: the value. -/
  | read (t : Token)
  deriving DecidableEq

/-- The queue, its pushers, its consumer and the history. -/
structure St (ι V : Type) where
  pos : Nat
  value : Nat → Option V
  stamp : Nat → Nat
  tx : ι → TxPc V
  rx : RxPc
  /-- The tokens issued and not redeemed. -/
  tokens : List Token
  pushed : List V
  /-- Number of messages taken: one more than the last one whose position was released. -/
  claimed : Nat
  returned : List (Nat × Option V)
  /-- For each failed push, the number of unclaimed messages when it read `pos`. -/
  refused : List Nat
  /-- For each `None`, the number of unclaimed messages when `pos` was loaded. -/
  missed : List Nat

/-- A call starts, or somebody takes a step. -/
inductive Act (ι V : Type)
  | push (i : ι) (v : V)
  | pop
  | select
  | redeem (t : Token)
  /-- `choice`: the weak compare-exchange fails spuriously. -/
  | goTx (i : ι) (choice : Bool)
  | goRx

section Step

variable {ι V : Type} [DecidableEq ι]

/-- `OneMpsc::new`. -/
def St.new : St ι V := ⟨0, fun _ => none, fun i => i, fun _ => .idle, .idle, [], [], 0, [], [], []⟩

/-- The high half of `pos`. -/
def St.head (s : St ι V) : Nat := high 16 s.pos

/-- The low half of `pos`. -/
def St.tail (s : St ι V) : Nat := low 16 s.pos

/-- Messages pushed and not claimed. -/
def St.unclaimed (s : St ι V) : Nat := s.pushed.length - s.claimed

/-- Pusher `i` goes to `pc`. -/
def St.setTx (s : St ι V) (i : ι) (pc : TxPc V) : St ι V := { s with tx := update s.tx i pc }

/-- The loop of `_try_push` on the word it has just read. -/
def St.tryPush (s : St ι V) (i : ι) (v : V) : St ι V :=
  if s.head = s.tail then s.setTx i (.cas v s.pos)
  else { s with tx := update s.tx i .idle, refused := s.unclaimed :: s.refused }

/-- One step of a pusher. -/
def stepTx (s : St ι V) (i : ι) (choice : Bool) : Option (St ι V) :=
  match s.tx i with
  | .idle => none
  | .load v => some (s.tryPush i v)
  | .cas v pos =>
    if s.pos = pos ∧ choice = false then
      some { s with
        tx := update s.tx i (.write v (low 16 pos) s.pushed.length)
        pos := pack 16 (high 16 pos) (wrapSucc 16 (low 16 pos))
        pushed := s.pushed ++ [v] }
    else some (s.tryPush i v)
  | .write v tail k =>
    some { s with
      tx := update s.tx i (.stamp v tail k)
      value := update s.value (tail &&& 1) (some v) }
  | .stamp _ tail _ =>
    some { s with
      tx := update s.tx i .idle
      stamp := update s.stamp (tail &&& 1) (wrapSucc 16 tail) }

/-- One step of the consumer. -/
def stepRx (s : St ι V) : Option (St ι V) :=
  match s.rx with
  | .idle => none
  | .load select =>
    if s.head = s.tail then some { s with rx := .idle, missed := s.unclaimed :: s.missed }
    else
      let t : Token := ⟨s.head &&& 1, s.tail, s.claimed, s.pos⟩
      if select then some { s with rx := .idle, tokens := t :: s.tokens }
      else some { s with rx := .store t }
  | .store t => some { s with pos := pack 16 t.tail t.tail, claimed := t.k + 1, rx := .wait t }
  | .wait t => if s.stamp t.index = t.tail then some { s with rx := .read t } else some s
  | .read t => some { s with rx := .idle, returned := s.returned ++ [(t.k, s.value t.index)] }

/-- One action; `none` if it is not possible now. -/
def step (s : St ι V) : Act ι V → Option (St ι V)
  | .push i v => if s.tx i matches .idle then some (s.setTx i (.load v)) else none
  | .pop => if s.rx = .idle then some { s with rx := .load false } else none
  | .select => if s.rx = .idle then some { s with rx := .load true } else none
  | .redeem t =>
    if s.rx = .idle ∧ t ∈ s.tokens then some { s with rx := .store t, tokens := s.tokens.erase t }
    else none
  | .goTx i choice => stepTx s i choice
  | .goRx => stepRx s

/-- Any number of pushers and one consumer. -/
def system : System (St ι V) (Act ι V) where
  init s := s = St.new
  step := step

/-- The consumer calls `_pop` only. -/
def popOnly (_ : St ι V) : Act ι V → Prop
  | .select => False
  | .push _ _ | .pop | .redeem _ | .goTx _ _ | .goRx => True

/-- No token is outstanding when the consumer starts to receive or to select. -/
def tokenOk (s : St ι V) : Act ι V → Prop
  | .pop | .select => s.tokens = []
  | .push _ _ | .redeem _ | .goTx _ _ | .goRx => True

/-! ## What a pusher can do -/

/-- The message a pusher has claimed and not yet published. -/
def TxPc.writes : TxPc V → Option Nat
  | .write _ _ k | .stamp _ _ k => some k
  | .idle | .load _ | .cas _ _ => none

/-- The steps of a pusher. -/
inductive TxStep (s : St ι V) (i : ι) : St ι V → Prop
  | check (v : V) (quiet : (s.tx i).writes = none) (free : s.head = s.tail) :
      TxStep s i (s.setTx i (.cas v s.pos))
  | refuse (quiet : (s.tx i).writes = none) (taken : s.head ≠ s.tail) :
      TxStep s i { s with tx := update s.tx i .idle, refused := s.unclaimed :: s.refused }
  | claim (v : V) (pc : s.tx i = .cas v s.pos) :
      TxStep s i { s with
        tx := update s.tx i (.write v s.tail s.pushed.length)
        pos := pack 16 s.head (wrapSucc 16 s.tail)
        pushed := s.pushed ++ [v] }
  | write (v : V) (tail k : Nat) (pc : s.tx i = .write v tail k) :
      TxStep s i { s with
        tx := update s.tx i (.stamp v tail k)
        value := update s.value (tail &&& 1) (some v) }
  | stamp (v : V) (tail k : Nat) (pc : s.tx i = .stamp v tail k) :
      TxStep s i { s with
        tx := update s.tx i .idle
        stamp := update s.stamp (tail &&& 1) (wrapSucc 16 tail) }

variable {s t : St ι V} {i : ι} {choice : Bool}

theorem txStep_tryPush (v : V) (hquiet : (s.tx i).writes = none) : TxStep s i (s.tryPush i v) := by
  unfold St.tryPush
  split_ifs with hfree
  · exact .check v hquiet hfree
  · exact .refuse hquiet hfree

/-- A step of a pusher is one of `TxStep`. -/
theorem txStep_of_stepTx (h : stepTx s i choice = some t) : TxStep s i t := by
  unfold stepTx at h
  cases hpc : s.tx i with
  | idle => simp [hpc] at h
  | load v =>
    simp only [hpc] at h
    cases h
    exact txStep_tryPush v (by rw [hpc]; rfl)
  | cas v pos =>
    simp only [hpc] at h
    split_ifs at h with hcas
    · obtain ⟨rfl, _⟩ := hcas
      cases h
      exact .claim v hpc
    · cases h
      exact txStep_tryPush v (by rw [hpc]; rfl)
  | write v tail k => simp only [hpc] at h; cases h; exact .write v tail k hpc
  | stamp v tail k => simp only [hpc] at h; cases h; exact .stamp v tail k hpc

end Step

/-! ## The invariant

At most the two last messages have not been returned. They are in different slots, so the slot of a
message whose pusher has stalled is touched by nobody else. -/

section Invariant

variable {ι V : Type} {s t : St ι V}

/-- What a pusher knows. -/
def TxPc.Fits (pushed : List V) (returned : Nat) (value : Nat → Option V) : TxPc V → Prop
  | .idle | .load _ => True
  | .cas _ pos => high 16 pos = low 16 pos
  | .write v tail k =>
    returned ≤ k ∧ k < pushed.length ∧ tail = k % 2 ^ 16 ∧ pushed[k]? = some v
  | .stamp v tail k =>
    (returned ≤ k ∧ k < pushed.length ∧ tail = k % 2 ^ 16 ∧ pushed[k]? = some v) ∧
      value (k % 2) = some v

/-- The stamp of a published message. -/
def stampOf (k : Nat) : Nat := (k + 1) % 2 ^ 16

/-- A token is for the one unclaimed message. -/
structure Token.Fresh (pos claimed pushed : Nat) (t : Token) : Prop where
  k : t.k = claimed
  index : t.index = claimed % 2
  pos : t.pos = pos
  tail : t.tail = pushed % 2 ^ 16
  here : pushed = claimed + 1

/-- The consumer has released the position of its message. -/
structure Token.Taken (pushed : List V) (claimed : Nat) (returned : List (Nat × Option V))
    (t : Token) : Prop where
  returned : returned = handed pushed t.k
  claimed : claimed = t.k + 1
  tail : t.tail = (t.k + 1) % 2 ^ 16
  index : t.index = t.k % 2

/-- What the consumer knows. -/
def RxPc.Fits (s : St ι V) : RxPc → Prop
  | .idle => s.returned = handed s.pushed s.claimed
  | .load _ => s.returned = handed s.pushed s.claimed ∧ s.tokens = []
  | .store t => s.returned = handed s.pushed s.claimed ∧ s.tokens = [] ∧
      t.Fresh s.pos s.claimed s.pushed.length
  | .wait t => s.tokens = [] ∧ t.Taken s.pushed s.claimed s.returned
  | .read t => s.tokens = [] ∧ t.Taken s.pushed s.claimed s.returned ∧
      ∀ i, (s.tx i).writes ≠ some t.k

/-- `pos` holds the positions, and the slots follow the turns. -/
structure Inv (s : St ι V) : Prop where
  word : s.pos = pack 16 (s.claimed % 2 ^ 16) (s.pushed.length % 2 ^ 16)
  one : s.pushed.length = s.claimed ∨ s.pushed.length = s.claimed + 1
  tx : ∀ i, (s.tx i).Fits s.pushed s.returned.length s.value
  slots : Stamped 2 stampOf (fun i => (s.tx i).writes) s.pushed s.value s.stamp
  rx : s.rx.Fits s
  tokens : s.tokens.length ≤ 1 ∧ ∀ t ∈ s.tokens, t.Fresh s.pos s.claimed s.pushed.length
  refused : ∀ n ∈ s.refused, n = 1
  missed : ∀ n ∈ s.missed, n = 0

theorem Inv.head (h : Inv s) : s.head = s.claimed % 2 ^ 16 := by
  rw [St.head, h.word, high_pack (mod_lt _) (mod_lt _)]

theorem Inv.tail (h : Inv s) : s.tail = s.pushed.length % 2 ^ 16 := by
  rw [St.tail, h.word, low_pack (mod_lt _)]

/-- The two halves are equal when nothing is unclaimed. -/
theorem Inv.head_eq_tail (h : Inv s) : s.head = s.tail ↔ s.pushed.length = s.claimed := by
  rw [h.head, h.tail]
  rcases h.one with hone | hone
  · simp [hone]
  · rw [hone]
    omega

theorem Inv.unclaimed_eq (h : Inv s) (hne : s.head ≠ s.tail) :
    s.pushed.length = s.claimed + 1 :=
  h.one.resolve_left fun hnone => hne (h.head_eq_tail.mpr hnone)

/-- What was claimed is returned, or about to be read. -/
theorem Inv.returned_eq (h : Inv s) : ∃ n, s.returned = handed s.pushed n ∧
    (n = s.claimed ∨ s.claimed = n + 1 ∧ ∃ t, s.rx = .wait t ∨ s.rx = .read t) := by
  have hrx := h.rx
  cases hpc : s.rx with
  | idle => rw [hpc] at hrx; exact ⟨_, hrx, .inl rfl⟩
  | load | store => rw [hpc] at hrx; exact ⟨_, hrx.1, .inl rfl⟩
  | wait tok => rw [hpc] at hrx; exact ⟨_, hrx.2.returned, .inr ⟨hrx.2.claimed, tok, .inl rfl⟩⟩
  | read tok =>
    rw [hpc] at hrx
    exact ⟨_, hrx.2.1.returned, .inr ⟨hrx.2.1.claimed, tok, .inr rfl⟩⟩

theorem length_handed (pushed : List V) (n : Nat) : (handed pushed n).length = n := by
  simp [handed]

/-- The last two messages at most are not returned. -/
theorem Inv.length_le (h : Inv s) :
    s.claimed ≤ s.returned.length + 1 ∧ s.returned.length ≤ s.claimed ∧
      s.claimed ≤ s.pushed.length ∧ s.pushed.length ≤ s.claimed + 1 := by
  obtain ⟨n, hret, hn⟩ := h.returned_eq
  have hlen : s.returned.length = n := by rw [hret, length_handed]
  rcases h.one with hone | hone <;> omega

theorem inv_new : Inv (St.new : St ι V) := by
  refine ⟨by simp [St.new, pack], .inl rfl, fun _ => trivial, stamped_nil, rfl,
    ⟨Nat.zero_le _, nofun⟩, nofun, nofun⟩

/-! ## The consumer -/

/-- A pop finds nothing. -/
theorem Inv.miss (h : Inv s) (heq : s.head = s.tail)
    (hret : s.returned = handed s.pushed s.claimed) :
    Inv { s with rx := .idle, missed := s.unclaimed :: s.missed } := by
  refine ⟨h.word, h.one, h.tx, h.slots, hret, h.tokens, h.refused, ?_⟩
  intro n hn
  rcases List.mem_cons.mp hn with rfl | hn
  · have hnone := h.head_eq_tail.mp heq
    rw [St.unclaimed]
    omega
  · exact h.missed n hn

/-- **A step of the consumer keeps the invariant.** -/
theorem Inv.goRx (h : Inv s) (hstep : stepRx s = some t) : Inv t := by
  have hrx := h.rx
  have hbound := h.length_le
  cases hpc : s.rx with
  | idle => simp [stepRx, hpc] at hstep
  | load select =>
    rw [hpc] at hrx
    simp only [stepRx, hpc] at hstep
    by_cases heq : s.head = s.tail
    · rw [if_pos heq] at hstep
      cases hstep
      exact h.miss heq hrx.1
    · rw [if_neg heq] at hstep
      have hfresh : Token.Fresh s.pos s.claimed s.pushed.length
          ⟨s.head &&& 1, s.tail, s.claimed, s.pos⟩ :=
        ⟨rfl, by rw [h.head, mod_and_one (by decide)], rfl, h.tail, h.unclaimed_eq heq⟩
      cases select with
      | true =>
        cases hstep
        refine ⟨h.word, h.one, h.tx, h.slots, hrx.1, ⟨?_, ?_⟩, h.refused, h.missed⟩
        · show (_ :: s.tokens).length ≤ 1
          rw [hrx.2]
          exact Nat.le_refl _
        · intro tok htok
          rw [hrx.2] at htok
          obtain rfl := List.mem_singleton.mp htok
          exact hfresh
      | false =>
        cases hstep
        exact ⟨h.word, h.one, h.tx, h.slots, ⟨hrx.1, hrx.2, hfresh⟩, h.tokens, h.refused,
          h.missed⟩
  | store tok =>
    rw [hpc] at hrx
    obtain ⟨hret, htokens, hfresh⟩ := hrx
    simp only [stepRx, hpc] at hstep
    cases hstep
    have hclaimed : tok.k + 1 = s.pushed.length := by rw [hfresh.k, hfresh.here]
    refine ⟨?_, .inl hclaimed.symm, h.tx, h.slots, ⟨htokens, ?_, rfl, ?_, ?_⟩, ?_, h.refused,
      h.missed⟩
    · show pack 16 tok.tail tok.tail = pack 16 ((tok.k + 1) % 2 ^ 16) _
      rw [hfresh.tail, hclaimed]
    · rw [hfresh.k]
      exact hret
    · rw [hfresh.tail, hclaimed]
    · rw [hfresh.index, hfresh.k]
    · exact only_of_eq_nil htokens
  | wait tok =>
    rw [hpc] at hrx
    obtain ⟨htokens, htaken⟩ := hrx
    simp only [stepRx, hpc] at hstep
    split_ifs at hstep with hstamp
    · cases hstep
      refine ⟨h.word, h.one, h.tx, h.slots, ⟨htokens, htaken, fun i hi => ?_⟩, h.tokens, h.refused,
        h.missed⟩
      -- the stamp is written after the value
      refine h.slots.pending i tok.k hi ?_
      rw [← htaken.index, hstamp]
      exact htaken.tail
    · cases hstep
      exact h
  | read tok =>
    rw [hpc] at hrx
    obtain ⟨htokens, htaken, hdone⟩ := hrx
    simp only [stepRx, hpc] at hstep
    cases hstep
    have hk := htaken.claimed
    have hlen : s.returned.length = tok.k := by rw [htaken.returned, length_handed]
    have hslot := h.slots.published tok.k (by omega) (by omega) hdone
    refine ⟨h.word, h.one, fun i => ?_, h.slots, ?_, h.tokens, h.refused, h.missed⟩
    · show (s.tx i).Fits s.pushed (s.returned ++ [(tok.k, s.value tok.index)]).length s.value
      have hpci := h.tx i
      have hnot := hdone i
      rw [List.length_append, List.length_singleton]
      cases hpc' : s.tx i with
      | idle | load v => exact trivial
      | cas v pos => rw [hpc'] at hpci; exact hpci
      | write v tail k =>
        rw [hpc'] at hpci hnot
        have hne : k ≠ tok.k := fun heq => hnot (congrArg some heq)
        have hle := hpci.1
        exact ⟨by omega, hpci.2⟩
      | stamp v tail k =>
        rw [hpc'] at hpci hnot
        have hne : k ≠ tok.k := fun heq => hnot (congrArg some heq)
        have hle := hpci.1.1
        exact ⟨⟨by omega, hpci.1.2⟩, hpci.2⟩
    · show s.returned ++ [(tok.k, s.value tok.index)] = handed s.pushed s.claimed
      rw [htaken.index, hslot.2, hk, handed_succ, htaken.returned]

/-! ## The pushers -/

variable {value : Nat → Option V} {pc : TxPc V}

/-- What the position of a pusher says about the message it writes. -/
theorem TxPc.Fits.writes {pushed : List V} {n k : Nat}
    (h : pc.Fits pushed n value) (hk : pc.writes = some k) :
    n ≤ k ∧ k < pushed.length ∧ ∃ v, pushed[k]? = some v := by
  cases pc with
  | idle | load v | cas v pos => simp [TxPc.writes] at hk
  | write v tail k' =>
    obtain rfl : k' = k := by simpa [TxPc.writes] using hk
    exact ⟨h.1, h.2.1, v, h.2.2.2⟩
  | stamp v tail k' =>
    obtain rfl : k' = k := by simpa [TxPc.writes] using hk
    exact ⟨h.1.1, h.1.2.1, v, h.1.2.2.2⟩

/-- A push is refused. -/
theorem Inv.refuse (h : Inv s) (hne : s.head ≠ s.tail) :
    Inv { s with refused := s.unclaimed :: s.refused } := by
  refine ⟨h.word, h.one, h.tx, h.slots, ?_, h.tokens, ?_, h.missed⟩
  · have hrx := h.rx
    cases hpc : s.rx <;> rw [hpc] at hrx <;> exact hrx
  · intro n hn
    rcases List.mem_cons.mp hn with rfl | hn
    · have hone := h.unclaimed_eq hne
      rw [St.unclaimed]
      omega
    · exact h.refused n hn

variable [DecidableEq ι]

variable {i : ι}

/-- A push moves no other pusher. -/
theorem TxPc.Fits.push {pushed : List V} {n : Nat}
    (h : pc.Fits pushed n value) (w : V) : pc.Fits (pushed ++ [w]) n value := by
  have hlen : (pushed ++ [w]).length = pushed.length + 1 := by simp
  cases pc with
  | idle | load v => exact trivial
  | cas v pos => exact h
  | write v tail k =>
    obtain ⟨hle, hlt, htail, hval⟩ := h
    exact ⟨hle, by omega, htail, by rw [List.getElem?_append_left hlt, hval]⟩
  | stamp v tail k =>
    obtain ⟨⟨hle, hlt, htail, hval⟩, hslot⟩ := h
    exact ⟨⟨hle, by omega, htail, by rw [List.getElem?_append_left hlt, hval]⟩, hslot⟩

/-- A pusher does not move the consumer. -/
theorem RxPc.Fits.setTx (h : s.rx.Fits s)
    (hw : pc.writes = none ∨ pc.writes = (s.tx i).writes) : s.rx.Fits (s.setTx i pc) := by
  cases hpc : s.rx with
  | idle | load select | store tok | wait tok => rw [hpc] at h; exact h
  | read tok =>
    rw [hpc] at h
    refine ⟨h.1, h.2.1, fun j => ?_⟩
    have hnot := h.2.2 j
    show (update s.tx i pc j).writes ≠ some tok.k
    by_cases hj : j = i
    · subst hj
      simp only [update_self]
      rcases hw with hw | hw <;> rw [hw]
      · nofun
      · exact hnot
    · simpa [hj] using hnot

/-- A step of a pusher outside its slot that changes nothing but its program counter. -/
theorem Inv.setTx (h : Inv s) (hw : pc.writes = (s.tx i).writes)
    (hpc : pc.Fits s.pushed s.returned.length s.value) : Inv (s.setTx i pc) where
  word := h.word
  one := h.one
  tx := forall_phase (fun j _ => h.tx j) hpc
  slots := by
    show Stamped 2 stampOf (fun j => (update s.tx i pc j).writes) s.pushed s.value s.stamp
    rw [map_update_of_eq hw]
    exact h.slots
  rx := h.rx.setTx (.inr hw)
  tokens := h.tokens
  refused := h.refused
  missed := h.missed

/-- A claim: the message before the last one was published and read. -/
theorem Inv.claim_slots {v : V} {tail : Nat} (h : Inv s)
    (hnone : s.pushed.length = s.claimed) (hi : (s.tx i).writes = none) :
    Stamped 2 stampOf (fun j => (update s.tx i (.write v tail s.pushed.length) j).writes)
      (s.pushed ++ [v]) s.value s.stamp := by
  have hbound := h.length_le
  rw [map_update TxPc.writes]
  refine h.slots.claim (by decide) hi (fun j k hk => ?_) (fun k => ?_) (fun k hk => ?_)
  · have hle := ((h.tx j).writes hk).1
    omega
  · unfold stampOf
    omega
  · unfold stampOf
    omega

/-- **A step of a pusher keeps the invariant.** -/
theorem Inv.goTx {choice : Bool} (h : Inv s) (hstep : stepTx s i choice = some t) : Inv t := by
  have hbound := h.length_le
  cases txStep_of_stepTx hstep with
  | check v hquiet hfree =>
    refine h.setTx (by rw [hquiet]; rfl) ?_
    exact hfree
  | refuse hquiet htaken =>
    have hidle : Inv (s.setTx i .idle) := h.setTx (by rw [hquiet]; rfl) trivial
    exact hidle.refuse htaken
  | claim v hpc =>
    have hfree : s.head = s.tail := by
      have hpci := h.tx i
      rwa [hpc] at hpci
    have hnone := h.head_eq_tail.mp hfree
    have hlen : (s.pushed ++ [v]).length = s.pushed.length + 1 := by simp
    have hhanded {n : Nat} (hn : n ≤ s.claimed) : handed (s.pushed ++ [v]) n = handed s.pushed n :=
      handed_push (by omega) v
    refine ⟨?_, .inr (by rw [hlen, hnone]), ?_, h.claim_slots hnone (by rw [hpc]; rfl), ?_, ?_,
      h.refused, h.missed⟩
    · show pack 16 s.head (wrapSucc 16 s.tail) = _
      rw [h.head, h.tail, wrapSucc_mod, hlen]
    · have hfits : (TxPc.write v s.tail s.pushed.length).Fits (s.pushed ++ [v]) s.returned.length
          s.value := ⟨by omega, by omega, h.tail, by simp⟩
      exact forall_phase (fun j _ => (h.tx j).push v) hfits
    · have hrx := h.rx
      cases hrxpc : s.rx with
      | idle => rw [hrxpc] at hrx; exact hrx.trans (hhanded (Nat.le_refl _)).symm
      | load select =>
        rw [hrxpc] at hrx
        exact ⟨hrx.1.trans (hhanded (Nat.le_refl _)).symm, hrx.2⟩
      | store tok =>
        rw [hrxpc] at hrx
        -- a consumer about to claim has seen a message: the queue was not free
        have := hrx.2.2.here
        omega
      | wait tok =>
        rw [hrxpc] at hrx
        obtain ⟨htokens, htaken⟩ := hrx
        have hk := htaken.claimed
        exact ⟨htokens, htaken.returned.trans (hhanded (by omega)).symm, hk, htaken.tail,
          htaken.index⟩
      | read tok =>
        rw [hrxpc] at hrx
        obtain ⟨htokens, htaken, hdone⟩ := hrx
        have hk := htaken.claimed
        refine ⟨htokens, ⟨htaken.returned.trans (hhanded (by omega)).symm, hk, htaken.tail,
          htaken.index⟩, fun j => ?_⟩
        by_cases hj : j = i
        · subst hj
          simp only [update_self, TxPc.writes, ne_eq, Option.some.injEq]
          omega
        · simpa [hj] using hdone j
    · refine ⟨h.tokens.1, fun tok htok => ?_⟩
      have := (h.tokens.2 tok htok).here
      omega
  | write v tail k hpc =>
    have hi : (s.tx i).writes = some k := by rw [hpc]; rfl
    have hpci := h.tx i
    rw [hpc] at hpci
    have hindex : tail &&& 1 = k % 2 := by rw [hpci.2.2.1, mod_and_one (by decide)]
    have hw : (TxPc.stamp v tail k).writes = (s.tx i).writes := by rw [hi]; rfl
    rw [hindex]
    refine ⟨h.word, h.one, ?_, ?_, ?_, h.tokens, h.refused, h.missed⟩
    · refine forall_phase (fun j hj => ?_) ⟨hpci, update_self ..⟩
      have hpcj := h.tx j
      cases hpc' : s.tx j with
      | idle | load v => exact trivial
      | cas | write => rw [hpc'] at hpcj; exact hpcj
      | stamp v' tail' k' =>
        rw [hpc'] at hpcj
        refine ⟨hpcj.1, ?_⟩
        have hwj : (s.tx j).writes = some k' := by rw [hpc']; rfl
        -- another producer writes the other slot
        have hne : k' ≠ k := by
          rintro rfl
          exact hj (h.slots.unique j i k' hwj hi)
        have := (h.tx j).writes hwj
        have := (h.tx i).writes hi
        exact (update_of_ne (by omega) ..).trans hpcj.2
    · rw [map_update_of_eq hw]
      exact h.slots.write hi
    · have hrx := h.rx.setTx (.inr hw)
      cases hrxpc : s.rx <;> rw [hrxpc] at hrx <;> exact hrx
  | stamp v tail k hpc =>
    have hpci := h.tx i
    rw [hpc] at hpci
    have hindex : tail &&& 1 = k % 2 := by rw [hpci.1.2.2.1, mod_and_one (by decide)]
    have hi : (s.tx i).writes = some k := by rw [hpc]; rfl
    rw [hindex, hpci.1.2.2.1, wrapSucc_mod]
    refine ⟨h.word, h.one, forall_phase (fun j _ => h.tx j) trivial, ?_, ?_, h.tokens,
      h.refused, h.missed⟩
    · rw [map_update TxPc.writes]
      exact h.slots.publish hi (hpci.2.trans hpci.1.2.2.2.symm)
    have hrx : s.rx.Fits (s.setTx i .idle) := h.rx.setTx (.inl rfl)
    cases hrxpc : s.rx <;> rw [hrxpc] at hrx <;> exact hrx

/-! ## Runs -/

/-- **Every action keeps the invariant.** -/
theorem Inv.step {a : Act ι V} (h : Inv s) (hok : tokenOk s a) (hstep : step s a = some t) :
    Inv t := by
  have hrx := h.rx
  cases a with
  | push i v =>
    simp only [Mpsc.step] at hstep
    split_ifs at hstep with hidle
    cases hstep
    refine h.setTx ?_ trivial
    cases hpc : s.tx i <;> simp [hpc] at hidle
    rfl
  | pop | select =>
    simp only [Mpsc.step] at hstep
    split_ifs at hstep with hidle
    cases hstep
    rw [hidle] at hrx
    exact ⟨h.word, h.one, h.tx, h.slots, ⟨hrx, hok⟩, h.tokens, h.refused, h.missed⟩
  | redeem tok =>
    simp only [Mpsc.step] at hstep
    split_ifs at hstep with hidle
    cases hstep
    rw [hidle.1] at hrx
    have hfresh := h.tokens.2 tok hidle.2
    have hnil := erase_eq_nil h.tokens.1 hidle.2
    exact ⟨h.word, h.one, h.tx, h.slots, ⟨hrx, hnil, hfresh⟩, only_of_eq_nil hnil, h.refused,
      h.missed⟩
  | goTx i choice => exact h.goTx hstep
  | goRx => exact h.goRx hstep

theorem inv_of_reach (h : Reach system tokenOk s) : Inv s := by
  refine h.invariant ?_ fun _ _ _ hs hok hstep => hs.step hok hstep
  rintro _ rfl
  exact inv_new

/-! ## The refinement -/

/-- Without `select` there are no tokens. -/
theorem tokens_of_step {a : Act ι V} (hrx : s.rx ≠ .load true) (htokens : s.tokens = [])
    (hok : popOnly s a) (hstep : step s a = some t) : t.rx ≠ .load true ∧ t.tokens = [] := by
  cases a with
  | push i v =>
    simp only [step] at hstep
    split_ifs at hstep
    cases hstep
    exact ⟨hrx, htokens⟩
  | pop =>
    simp only [step] at hstep
    split_ifs at hstep
    cases hstep
    exact ⟨nofun, htokens⟩
  | select => exact hok.elim
  | redeem tok =>
    simp only [step, htokens] at hstep
    simp at hstep
  | goTx i choice => cases txStep_of_stepTx hstep <;> exact ⟨hrx, htokens⟩
  | goRx =>
    simp only [step, stepRx] at hstep
    cases hpc : s.rx with
    | idle => simp [hpc] at hstep
    | load select =>
      simp only [hpc] at hstep
      split_ifs at hstep with heq hselect
      · cases hstep; exact ⟨nofun, htokens⟩
      · rw [hselect] at hpc; exact absurd hpc hrx
      · cases hstep; exact ⟨nofun, htokens⟩
    | store | read => simp only [hpc] at hstep; cases hstep; exact ⟨nofun, htokens⟩
    | wait tok =>
      simp only [hpc] at hstep
      split_ifs at hstep
      · cases hstep; exact ⟨nofun, htokens⟩
      · cases hstep; exact ⟨hrx, htokens⟩

/-- **Without tokens the invariant always holds.** -/
theorem inv_of_popOnly (h : Reach system popOnly s) : Inv s := by
  suffices hall : Inv s ∧ s.rx ≠ .load true ∧ s.tokens = [] from hall.1
  refine h.invariant (P := fun s => Inv s ∧ s.rx ≠ .load true ∧ s.tokens = []) ?_ ?_
  · rintro _ rfl
    exact ⟨inv_new, nofun, rfl⟩
  · rintro s a t ⟨hinv, hrx, htokens⟩ hok hstep
    have htoken : tokenOk s a := by cases a <;> first | exact htokens | exact trivial
    exact ⟨hinv.step htoken hstep, tokens_of_step hrx htokens hok hstep⟩

/-- A queue of capacity one. -/
structure IsFifo (s : St ι V) : Prop where
  /-- The consumer returns the pushed values in the order of the compare-exchanges. -/
  values : s.returned.map Prod.snd = (s.pushed.take s.returned.length).map some
  /-- Nothing is lost: what was claimed is returned, or the consumer is about to read it. -/
  claimed : s.claimed = s.returned.length ∨
    s.claimed = s.returned.length + 1 ∧ ∃ t, s.rx = .wait t ∨ s.rx = .read t
  capacity : s.claimed ≤ s.pushed.length ∧ s.pushed.length ≤ s.claimed + 1
  /-- The consumer's store replaces the word that it loaded. -/
  rxStore : ∀ t, s.rx = .store t → s.pos = t.pos
  /-- The slot that is written holds no message that is still to be read. -/
  overwrite : ∀ i v tail k, s.tx i = .write v tail k → k < s.returned.length + 2 ∧
    ∀ k', s.returned.length ≤ k' → k' < s.pushed.length → k' &&& 1 = tail &&& 1 → k' = k
  /-- The slot that is read holds its message, and nobody writes it. -/
  read : ∀ t, s.rx = .read t → s.value t.index = s.pushed[s.returned.length]? ∧
    ∀ i v tail k, s.tx i = .write v tail k → tail &&& 1 ≠ t.index
  /-- A push fails when a message is unclaimed, `None` is returned when none is. -/
  refused : ∀ n ∈ s.refused, n = 1
  missed : ∀ n ∈ s.missed, n = 0

/-- **`OneMpsc` refines a queue of capacity one.** -/
theorem oneMpsc_isFifo (h : Reach system popOnly s) : IsFifo s := by
  have hinv := inv_of_popOnly h
  have hrx := hinv.rx
  have hbound := hinv.length_le
  obtain ⟨n, hret, hn⟩ := hinv.returned_eq
  have hlen : s.returned.length = n := by rw [hret, length_handed]
  refine ⟨?_, ?_, hbound.2.2, ?_, ?_, ?_, hinv.refused, hinv.missed⟩
  · rw [hlen, hret]
    exact handed_values (by omega)
  · rw [hlen]
    exact hn.imp_left Eq.symm
  · intro tok hpc
    rw [hpc] at hrx
    exact hrx.2.2.pos.symm
  · intro i v tail k hpc
    have hpci := hinv.tx i
    rw [hpc] at hpci
    obtain ⟨hle, hlt, htail, _⟩ := hpci
    refine ⟨by omega, fun k' hle' hlt' hslot => ?_⟩
    -- two unreturned messages in one slot are the same message
    rw [htail, mod_and_one (by decide), Nat.and_one_is_mod] at hslot
    omega
  · intro tok hpc
    rw [hpc] at hrx
    obtain ⟨_, htaken, hdone⟩ := hrx
    have hk : s.returned.length = tok.k := by rw [htaken.returned, length_handed]
    have hclaimed := htaken.claimed
    refine ⟨?_, fun i v tail k hpci => ?_⟩
    · rw [htaken.index, hk]
      exact (hinv.slots.published tok.k (by omega) (by omega) hdone).2
    · have hwrites : (s.tx i).writes = some k := by rw [hpci]; rfl
      have hne : k ≠ tok.k := fun heq => hdone i (heq ▸ hwrites)
      have hfits := hinv.tx i
      rw [hpci] at hfits
      obtain ⟨hle, hlt, htail, _⟩ := hfits
      rw [htail, mod_and_one (by decide), htaken.index]
      omega

omit [DecidableEq ι] in
instance (s : St ι V) : (a : Act ι V) → Decidable (popOnly s a)
  | .select => instDecidableFalse
  | .push _ _ | .pop | .redeem _ | .goTx _ _ | .goRx => instDecidableTrue

/-- The first pusher stalls after its compare-exchange; the second message is pushed and published
while the consumer waits for the first one. -/
theorem oneMpsc_isFifo_stalled : ∃ s : St (Fin 2) Nat, Reach system popOnly s ∧ IsFifo s ∧
    s.returned = [(0, some 7), (1, some 8)] := by
  have hnew : Reach (system (ι := Fin 2) (V := Nat)) popOnly St.new := .init rfl
  obtain ⟨s, hs, hret⟩ := hnew.exists_of_run
    [.push 0 7, .goTx 0 false, .goTx 0 false, .pop, .goRx, .goRx, .goRx, .push 1 8, .goTx 1 false,
      .goTx 1 true, .goTx 1 false, .goTx 1 false, .goTx 1 false, .goRx, .goTx 0 false,
      .goTx 0 false, .goRx, .goRx, .pop, .goRx, .goRx, .goRx, .goRx]
    (fun s => s.returned = [(0, some 7), (1, some 8)]) (by decide +kernel)
  exact ⟨s, hs, oneMpsc_isFifo hs, hret⟩

end Invariant

end Crossfire.One.Mpsc
