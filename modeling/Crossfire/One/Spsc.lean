import Crossfire.Lib.Interleaving
import Crossfire.Lib.Packed
import Crossfire.Lib.Fifo

/-!
# `OneSpsc`: a queue of capacity one for one producer and one consumer

`OneSp::try_push` and `OneSpsc::_pop` of `one_spmc.rs`, with the two halves of `_pop` that `select`
uses: `start_read` issues a token, `_read` redeems it. Both sides change the packed word `pos` by a
load and a later plain store, and the consumer stores before it reads its slot. A step is one load,
one store or one access to a slot.

The history numbers the messages by their pushes. `oneSpsc_isFifo` is the refinement of a queue of
capacity one.
-/

set_option autoImplicit false

namespace Crossfire.One.Spsc

open Lib.Interleaving Lib.Packed Lib.Fifo Function

/-- Program counter of the producer in `try_push`. -/
inductive TxPc (V : Type)
  | idle
  | load (v : V)
  /-- `head == tail` in the word `pos` it has loaded. -/
  | write (v : V) (pos : Nat)
  | store (v : V) (pos : Nat)
  deriving DecidableEq

/-- What `start_read` returns, with its history. -/
structure Token where
  tail : Nat
  /-- The number of the message it was issued for. -/
  k : Nat
  /-- The word that was loaded. -/
  pos : Nat
  deriving DecidableEq

/-- Program counter of the consumer. -/
inductive RxPc
  | idle
  /-- `start_read`, for `_pop` or for a token. -/
  | load (select : Bool)
  /-- `_read`: the store to `pos`. -/
  | store (t : Token)
  /-- `_read`: the slot. -/
  | read (t : Token)
  deriving DecidableEq

/-- The queue, its two sides and the history. -/
structure St (V : Type) where
  pos : Nat
  slot : Nat → Option V
  tx : TxPc V
  rx : RxPc
  /-- The tokens issued and not redeemed. -/
  tokens : List Token
  pushed : List V
  /-- Number of messages taken: one more than the last one whose slot was released. -/
  claimed : Nat
  returned : List (Nat × Option V)
  /-- For each failed push, the number of unclaimed messages when it loaded `pos`. -/
  refused : List Nat
  /-- For each `None`, the number of unclaimed messages when `pos` was loaded. -/
  missed : List Nat

/-- A call starts, or somebody takes a step. -/
inductive Act (V : Type)
  | push (v : V)
  | pop
  | select
  | redeem (t : Token)
  | goTx
  | goRx

section Step

variable {V : Type}

/-- `OneSp::new`. -/
def St.new : St V := ⟨0, fun _ => none, .idle, .idle, [], [], 0, [], [], []⟩

/-- The high half of `pos`. -/
def St.head (s : St V) : Nat := high 32 s.pos

/-- The low half of `pos`. -/
def St.tail (s : St V) : Nat := low 32 s.pos

/-- `tail.wrapping_add(1)`. -/
def newTail (pos : Nat) : Nat := (low 32 pos + 1) % 2 ^ 32

/-- Messages pushed and not claimed. -/
def St.unclaimed (s : St V) : Nat := s.pushed.length - s.claimed

/-- One step of `try_push`. -/
def stepTx (s : St V) : Option (St V) :=
  match s.tx with
  | .idle => none
  | .load v =>
    if s.head = s.tail then some { s with tx := .write v s.pos }
    else some { s with tx := .idle, refused := s.unclaimed :: s.refused }
  | .write v pos =>
    some { s with
      slot := update s.slot (newTail pos &&& 1) (some v)
      tx := .store v pos }
  | .store v pos =>
    some { s with
      pos := pack 32 (high 32 pos) (newTail pos)
      tx := .idle
      pushed := s.pushed ++ [v] }

/-- One step of `start_read` or `_read`. -/
def stepRx (s : St V) : Option (St V) :=
  match s.rx with
  | .idle => none
  | .load select =>
    if s.head = s.tail then some { s with rx := .idle, missed := s.unclaimed :: s.missed }
    else
      let t : Token := ⟨s.tail, s.claimed, s.pos⟩
      if select then some { s with rx := .idle, tokens := t :: s.tokens }
      else some { s with rx := .store t }
  | .store t => some { s with pos := pack 32 t.tail t.tail, claimed := t.k + 1, rx := .read t }
  | .read t =>
    some { s with rx := .idle, returned := s.returned ++ [(t.k, s.slot (t.tail &&& 1))] }

/-- One action; `none` if it is not possible now. -/
def step (s : St V) : Act V → Option (St V)
  | .push v => if s.tx matches .idle then some { s with tx := .load v } else none
  | .pop => if s.rx = .idle then some { s with rx := .load false } else none
  | .select => if s.rx = .idle then some { s with rx := .load true } else none
  | .redeem t =>
    if s.rx = .idle ∧ t ∈ s.tokens then some { s with rx := .store t, tokens := s.tokens.erase t }
    else none
  | .goTx => stepTx s
  | .goRx => stepRx s

/-- One producer and one consumer. -/
def system : System (St V) (Act V) where
  init s := s = St.new
  step := step

/-- The consumer calls `_pop` only. -/
def popOnly (_ : St V) : Act V → Prop
  | .select => False
  | .push _ | .pop | .redeem _ | .goTx | .goRx => True

/-- No token is outstanding when the consumer starts to receive or to select. -/
def tokenOk (s : St V) : Act V → Prop
  | .pop | .select => s.tokens = []
  | .push _ | .redeem _ | .goTx | .goRx => True

end Step

/-! ## The invariant -/

section Invariant

variable {V : Type} {s t : St V}

/-- A token is for the one unclaimed message. -/
structure Token.Fresh (pos claimed pushed : Nat) (t : Token) : Prop where
  k : t.k = claimed
  pos : t.pos = pos
  tail : t.tail = pushed % 2 ^ 32
  here : pushed = claimed + 1

/-- What the producer knows. -/
def TxPc.Fits (s : St V) : TxPc V → Prop
  | .idle | .load _ => True
  | .write _ pos => pos = s.pos ∧ s.pushed.length = s.claimed
  | .store v pos =>
    pos = s.pos ∧ s.pushed.length = s.claimed ∧ s.slot ((s.pushed.length + 1) % 2) = some v

/-- What the consumer knows. -/
def RxPc.Fits (s : St V) : RxPc → Prop
  | .idle => s.returned = handed s.pushed s.claimed
  | .load _ => s.returned = handed s.pushed s.claimed ∧ s.tokens = []
  | .store t => s.returned = handed s.pushed s.claimed ∧ s.tokens = [] ∧
      t.Fresh s.pos s.claimed s.pushed.length
  | .read t =>
    s.returned = handed s.pushed t.k ∧ s.tokens = [] ∧ s.claimed = t.k + 1 ∧
      t.tail = s.claimed % 2 ^ 32 ∧ s.slot (s.claimed % 2) = s.pushed[t.k]?

/-- `pos` holds the positions, and the slots follow the turns. -/
structure Inv (s : St V) : Prop where
  word : s.pos = pack 32 (s.claimed % 2 ^ 32) (s.pushed.length % 2 ^ 32)
  one : s.pushed.length = s.claimed ∨ s.pushed.length = s.claimed + 1
  tx : s.tx.Fits s
  rx : s.rx.Fits s
  tokens : s.tokens.length ≤ 1 ∧ ∀ t ∈ s.tokens, t.Fresh s.pos s.claimed s.pushed.length
  /-- The unclaimed message is in its slot. -/
  slot : s.pushed.length = s.claimed + 1 →
    s.slot ((s.claimed + 1) % 2) = s.pushed[s.claimed]?
  refused : ∀ n ∈ s.refused, n = 1
  missed : ∀ n ∈ s.missed, n = 0

theorem Inv.head (h : Inv s) : s.head = s.claimed % 2 ^ 32 := by
  rw [St.head, h.word, high_pack (mod_lt _) (mod_lt _)]

theorem Inv.tail (h : Inv s) : s.tail = s.pushed.length % 2 ^ 32 := by
  rw [St.tail, h.word, low_pack (mod_lt _)]

theorem Inv.newTail_eq (h : Inv s) : newTail s.pos = (s.pushed.length + 1) % 2 ^ 32 := by
  rw [newTail, ← St.tail, h.tail, Nat.mod_add_mod]

/-- The two halves are equal when nothing is unclaimed. -/
theorem Inv.head_eq_tail (h : Inv s) : s.head = s.tail ↔ s.pushed.length = s.claimed := by
  rw [h.head, h.tail]
  rcases h.one with hone | hone
  · simp [hone]
  · rw [hone]
    omega

theorem Inv.claimed_le (h : Inv s) : s.claimed ≤ s.pushed.length := by
  rcases h.one with hone | hone <;> omega

theorem inv_new : Inv (St.new : St V) := by
  refine ⟨by simp [St.new, pack], .inl rfl, trivial, rfl, ⟨Nat.zero_le _, nofun⟩, ?_, nofun, nofun⟩
  intro h
  cases h

/-! ## The producer -/

/-- **A step of the producer keeps the invariant.** -/
theorem Inv.goTx (h : Inv s) (hstep : stepTx s = some t) : Inv t := by
  have htx := h.tx
  cases hpc : s.tx with
  | idle => simp [stepTx, hpc] at hstep
  | load v =>
    simp only [stepTx, hpc] at hstep
    split_ifs at hstep with heq
    · cases hstep
      exact ⟨h.word, h.one, ⟨rfl, h.head_eq_tail.mp heq⟩, h.rx, h.tokens, h.slot, h.refused,
        h.missed⟩
    · cases hstep
      refine ⟨h.word, h.one, trivial, h.rx, h.tokens, h.slot, ?_, h.missed⟩
      intro n hn
      rcases List.mem_cons.mp hn with rfl | hn
      · have hone := h.one.resolve_left fun hnone => heq (h.head_eq_tail.mpr hnone)
        rw [St.unclaimed]
        omega
      · exact h.refused n hn
  | write v pos =>
    rw [hpc] at htx
    obtain ⟨rfl, hnone⟩ := htx
    simp only [stepTx, hpc] at hstep
    cases hstep
    have hindex : newTail s.pos &&& 1 = (s.pushed.length + 1) % 2 := by
      rw [h.newTail_eq, mod_and_one (by decide)]
    refine ⟨h.word, h.one, ⟨rfl, hnone, ?_⟩, ?_, h.tokens, ?_, h.refused, h.missed⟩
    · rw [hindex]
      exact update_self ..
    · -- a consumer that still reads is at the other slot
      have hrx := h.rx
      cases hrxpc : s.rx with
      | read tok =>
        rw [hrxpc] at hrx
        obtain ⟨hret, htokens, hk, htail, hslot⟩ := hrx
        refine ⟨hret, htokens, hk, htail, ?_⟩
        have hne : s.claimed % 2 ≠ (s.pushed.length + 1) % 2 := by omega
        rw [← hslot, hindex]
        exact update_of_ne hne ..
      | idle | load select | store tok => rw [hrxpc] at hrx; exact hrx
    · intro hone
      have hlen : s.pushed.length = s.claimed + 1 := hone
      omega
  | store v pos =>
    rw [hpc] at htx
    obtain ⟨rfl, hnone, hslot⟩ := htx
    simp only [stepTx, hpc] at hstep
    cases hstep
    have hlen : (s.pushed ++ [v]).length = s.pushed.length + 1 := by simp
    have hhanded {n : Nat} (hn : n ≤ s.claimed) : handed (s.pushed ++ [v]) n = handed s.pushed n :=
      handed_push (hn.trans h.claimed_le) v
    refine ⟨?_, .inr (by rw [hlen, hnone]), trivial, ?_, ?_, ?_, h.refused, h.missed⟩
    · show pack 32 (high 32 s.pos) (newTail s.pos) = _
      rw [← St.head, h.head, h.newTail_eq, hlen]
    · have hrx := h.rx
      cases hrxpc : s.rx with
      | idle =>
        rw [hrxpc] at hrx
        exact hrx.trans (hhanded (Nat.le_refl _)).symm
      | load select =>
        rw [hrxpc] at hrx
        exact ⟨hrx.1.trans (hhanded (Nat.le_refl _)).symm, hrx.2⟩
      | store tok =>
        rw [hrxpc] at hrx
        have := hrx.2.2.here
        omega
      | read tok =>
        rw [hrxpc] at hrx
        obtain ⟨hret, htokens, hk, htail, hslot'⟩ := hrx
        refine ⟨hret.trans (hhanded (by omega)).symm, htokens, hk, htail, ?_⟩
        rw [List.getElem?_append_left (by omega)]
        exact hslot'
    · refine ⟨h.tokens.1, fun tok htok => ?_⟩
      have := (h.tokens.2 tok htok).here
      omega
    · intro _
      show s.slot _ = _
      rw [← hnone, hslot, List.getElem?_append_right (Nat.le_refl _), Nat.sub_self]
      rfl

/-! ## The consumer -/

/-- **A step of the consumer keeps the invariant.** -/
theorem Inv.goRx (h : Inv s) (hstep : stepRx s = some t) : Inv t := by
  have hrx := h.rx
  cases hpc : s.rx with
  | idle => simp [stepRx, hpc] at hstep
  | load select =>
    rw [hpc] at hrx
    simp only [stepRx, hpc] at hstep
    by_cases heq : s.head = s.tail
    · rw [if_pos heq] at hstep
      cases hstep
      refine ⟨h.word, h.one, h.tx, hrx.1, h.tokens, h.slot, h.refused, ?_⟩
      intro n hn
      rcases List.mem_cons.mp hn with rfl | hn
      · have hnone := h.head_eq_tail.mp heq
        rw [St.unclaimed]
        omega
      · exact h.missed n hn
    · rw [if_neg heq] at hstep
      have hone := h.one.resolve_left fun hnone => heq (h.head_eq_tail.mpr hnone)
      have hfresh : Token.Fresh s.pos s.claimed s.pushed.length ⟨s.tail, s.claimed, s.pos⟩ :=
        ⟨rfl, rfl, h.tail, hone⟩
      cases select with
      | true =>
        cases hstep
        refine ⟨h.word, h.one, h.tx, hrx.1, ⟨?_, ?_⟩, h.slot, h.refused, h.missed⟩
        · show (_ :: s.tokens).length ≤ 1
          rw [hrx.2]
          exact Nat.le_refl _
        · intro tok htok
          rw [hrx.2] at htok
          obtain rfl := List.mem_singleton.mp htok
          exact hfresh
      | false =>
        cases hstep
        exact ⟨h.word, h.one, h.tx, ⟨hrx.1, hrx.2, hfresh⟩, h.tokens, h.slot, h.refused,
          h.missed⟩
  | store tok =>
    rw [hpc] at hrx
    obtain ⟨hret, htokens, hfresh⟩ := hrx
    simp only [stepRx, hpc] at hstep
    cases hstep
    have hclaimed : tok.k + 1 = s.pushed.length := by rw [hfresh.k, hfresh.here]
    refine ⟨?_, .inl hclaimed.symm, ?_, ⟨?_, htokens, rfl, ?_, ?_⟩, ?_, ?_, h.refused, h.missed⟩
    · show pack 32 tok.tail tok.tail = pack 32 ((tok.k + 1) % 2 ^ 32) _
      rw [hfresh.tail, hclaimed]
    · -- the producer waits for the store: it has seen a message
      have htx := h.tx
      have hhere := hfresh.here
      cases htxpc : s.tx with
      | write v pos => rw [htxpc] at htx; have := htx.2; omega
      | store v pos => rw [htxpc] at htx; have := htx.2.1; omega
      | idle | load v => exact trivial
    · rw [hfresh.k]
      exact hret
    · rw [hfresh.tail, hclaimed]
    · show s.slot ((tok.k + 1) % 2) = s.pushed[tok.k]?
      rw [hfresh.k]
      exact h.slot hfresh.here
    · exact only_of_eq_nil htokens
    · intro hmore
      have : s.pushed.length = tok.k + 1 + 1 := hmore
      omega
  | read tok =>
    rw [hpc] at hrx
    obtain ⟨hret, htokens, hk, htail, hslot⟩ := hrx
    simp only [stepRx, hpc] at hstep
    cases hstep
    refine ⟨h.word, h.one, h.tx, ?_, h.tokens, h.slot, h.refused, h.missed⟩
    show s.returned ++ [(tok.k, s.slot (tok.tail &&& 1))] = handed s.pushed s.claimed
    rw [htail, mod_and_one (by decide), hslot, hk, handed_succ, hret]

/-- **Every action keeps the invariant.** -/
theorem Inv.step {a : Act V} (h : Inv s) (hok : tokenOk s a) (hstep : step s a = some t) :
    Inv t := by
  have hrx := h.rx
  cases a with
  | push v =>
    simp only [Spsc.step] at hstep
    split_ifs at hstep
    cases hstep
    exact ⟨h.word, h.one, trivial, h.rx, h.tokens, h.slot, h.refused, h.missed⟩
  | pop | select =>
    simp only [Spsc.step] at hstep
    split_ifs at hstep with hidle
    cases hstep
    rw [hidle] at hrx
    exact ⟨h.word, h.one, h.tx, ⟨hrx, hok⟩, h.tokens, h.slot, h.refused, h.missed⟩
  | redeem tok =>
    simp only [Spsc.step] at hstep
    split_ifs at hstep with hidle
    cases hstep
    rw [hidle.1] at hrx
    have hfresh := h.tokens.2 tok hidle.2
    have hnil := erase_eq_nil h.tokens.1 hidle.2
    exact ⟨h.word, h.one, h.tx, ⟨hrx, hnil, hfresh⟩, only_of_eq_nil hnil, h.slot, h.refused,
      h.missed⟩
  | goTx => exact h.goTx hstep
  | goRx => exact h.goRx hstep

theorem inv_of_reach (h : Reach system tokenOk s) : Inv s := by
  refine h.invariant ?_ fun _ _ _ hs hok hstep => hs.step hok hstep
  rintro _ rfl
  exact inv_new

/-! ## The refinement -/

/-- Without `select` there are no tokens. -/
theorem tokens_of_step {a : Act V} (hrx : s.rx ≠ .load true) (htokens : s.tokens = [])
    (hok : popOnly s a) (hstep : step s a = some t) : t.rx ≠ .load true ∧ t.tokens = [] := by
  cases a with
  | push v =>
    simp only [step] at hstep
    split_ifs at hstep
    cases hstep
    exact ⟨hrx, htokens⟩
  | pop =>
    simp only [step] at hstep
    split_ifs at hstep
    cases hstep
    exact ⟨nofun, htokens⟩
  | select => exact hok.elim
  | redeem tok =>
    simp only [step, htokens] at hstep
    simp at hstep
  | goTx =>
    simp only [step, stepTx] at hstep
    cases htx : s.tx with
    | idle => simp [htx] at hstep
    | load v =>
      simp only [htx] at hstep
      split_ifs at hstep
      · cases hstep; exact ⟨hrx, htokens⟩
      · cases hstep; exact ⟨hrx, htokens⟩
    | write | store => simp only [htx] at hstep; cases hstep; exact ⟨hrx, htokens⟩
  | goRx =>
    simp only [step, stepRx] at hstep
    cases hpc : s.rx with
    | idle => simp [hpc] at hstep
    | load select =>
      simp only [hpc] at hstep
      split_ifs at hstep with heq hselect
      · cases hstep; exact ⟨nofun, htokens⟩
      · rw [hselect] at hpc; exact absurd hpc hrx
      · cases hstep; exact ⟨nofun, htokens⟩
    | store | read => simp only [hpc] at hstep; cases hstep; exact ⟨nofun, htokens⟩

/-- **Without tokens the invariant always holds.** -/
theorem inv_of_popOnly (h : Reach system popOnly s) : Inv s := by
  suffices hall : Inv s ∧ s.rx ≠ .load true ∧ s.tokens = [] from hall.1
  refine h.invariant (P := fun s => Inv s ∧ s.rx ≠ .load true ∧ s.tokens = []) ?_ ?_
  · rintro _ rfl
    exact ⟨inv_new, nofun, rfl⟩
  · rintro s a t ⟨hinv, hrx, htokens⟩ hok hstep
    have htoken : tokenOk s a := by cases a <;> first | exact htokens | exact trivial
    exact ⟨hinv.step htoken hstep, tokens_of_step hrx htokens hok hstep⟩

/-- A queue of capacity one. -/
structure IsFifo (s : St V) : Prop where
  /-- The consumer returns the pushed values in order. -/
  values : s.returned.map Prod.snd = (s.pushed.take s.returned.length).map some
  /-- Nothing is lost: what was claimed is returned, or about to be read. -/
  claimed : s.claimed = s.returned.length ∨
    s.claimed = s.returned.length + 1 ∧ ∃ t, s.rx = .read t
  capacity : s.claimed ≤ s.pushed.length ∧ s.pushed.length ≤ s.claimed + 1
  /-- The stores replace the word that was loaded. -/
  txStore : ∀ v pos, s.tx = .store v pos → s.pos = pos
  rxStore : ∀ t, s.rx = .store t → s.pos = t.pos
  /-- The two sides are never at the same slot. -/
  apart : ∀ v pos t, s.tx = .write v pos → s.rx = .read t → newTail pos &&& 1 ≠ t.tail &&& 1
  positions : s.tail = s.head ∨ s.tail = (s.head + 1) % 2 ^ 32
  /-- A push fails when a message is unclaimed, `None` is returned when none is. -/
  refused : ∀ n ∈ s.refused, n = 1
  missed : ∀ n ∈ s.missed, n = 0

/-- All but the value being read are returned. -/
theorem Inv.returned_eq (h : Inv s) : ∃ n, s.returned = handed s.pushed n ∧
    (n = s.claimed ∨ s.claimed = n + 1 ∧ ∃ t, s.rx = .read t) := by
  have hrx := h.rx
  cases hpc : s.rx with
  | idle => rw [hpc] at hrx; exact ⟨_, hrx, .inl rfl⟩
  | load | store => rw [hpc] at hrx; exact ⟨_, hrx.1, .inl rfl⟩
  | read tok => rw [hpc] at hrx; exact ⟨_, hrx.1, .inr ⟨hrx.2.2.1, tok, rfl⟩⟩

/-- **`OneSpsc` refines a queue of capacity one.** -/
theorem oneSpsc_isFifo (h : Reach system popOnly s) : IsFifo s := by
  have hinv := inv_of_popOnly h
  have htx := hinv.tx
  have hrx := hinv.rx
  have hle := hinv.claimed_le
  obtain ⟨n, hret, hn⟩ := hinv.returned_eq
  have hlen : s.returned.length = n := by simp [hret, handed]
  refine ⟨?_, ?_, ⟨hle, ?_⟩, ?_, ?_, ?_, ?_, hinv.refused, hinv.missed⟩
  · rw [hlen, hret]
    exact handed_values (by omega)
  · rw [hlen]
    exact hn.imp_left Eq.symm
  · rcases hinv.one with hone | hone <;> omega
  · intro v pos hpc
    rw [hpc] at htx
    exact htx.1.symm
  · intro tok hpc
    rw [hpc] at hrx
    exact hrx.2.2.pos.symm
  · intro v pos tok htxpc hrxpc
    rw [htxpc] at htx
    rw [hrxpc] at hrx
    obtain ⟨rfl, hnone⟩ := htx
    obtain ⟨_, _, _, htail, _⟩ := hrx
    rw [hinv.newTail_eq, htail, mod_and_one (by decide), mod_and_one (by decide)]
    omega
  · rw [hinv.head, hinv.tail, Nat.mod_add_mod]
    rcases hinv.one with hone | hone
    · exact .inl (by rw [hone])
    · exact .inr (by rw [hone])

instance (s : St V) : (a : Act V) → Decidable (popOnly s a)
  | .select => instDecidableFalse
  | .push _ | .pop | .redeem _ | .goTx | .goRx => instDecidableTrue

/-- Two messages, the second one pushed while the first one is read. -/
theorem oneSpsc_isFifo_two : ∃ s : St Nat, Reach system popOnly s ∧ IsFifo s ∧
    s.returned = [(0, some 7), (1, some 8)] := by
  have hnew : Reach (system (V := Nat)) popOnly St.new := .init rfl
  obtain ⟨s, hs, hret⟩ := hnew.exists_of_run
    [.push 7, .goTx, .goTx, .goTx, .pop, .goRx, .goRx, .push 8, .goTx, .goTx, .goRx, .goTx, .pop,
      .goRx, .goRx, .goRx]
    (fun s => s.returned = [(0, some 7), (1, some 8)]) (by decide +kernel)
  exact ⟨s, hs, oneSpsc_isFifo hs, hret⟩

end Invariant

end Crossfire.One.Spsc
