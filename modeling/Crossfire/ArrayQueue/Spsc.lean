import Crossfire.Lib.Interleaving
import Crossfire.Lib.Fifo
import Crossfire.Lib.Slots
import Crossfire.ArrayQueue.Token

/-!
# `ArrayQueueSpsc`: a bounded queue for one producer and one consumer

`array_queue_spsc.rs` at the granularity of loads, stores and slot accesses. There are no stamps:
the producer keeps its position and a copy of the consumer's position in the word `sender`, the
consumer its position and a copy of the producer's in `recv`, and each looks at the other's word
only when its copy says full or empty. The copies may be arbitrarily old. The two halves of a pop,
`start_read` and `read`, are also used by `select`.

The history numbers the messages by their pushes. `arraySpsc_isFifo` is the refinement of a bounded
queue, for every capacity below `2 ^ 31`.
-/

set_option autoImplicit false

namespace Crossfire.ArrayQueue.Spsc

open Lib.Interleaving Lib.Packed Lib.Lap Lib.Fifo Lib.Slots Function

/-- Program counter of the producer in `_try_push`; the words are `head_cached` and `tail`. -/
inductive TxPc (V : Type)
  | idle
  | load (v : V)
  /-- The copy says full: the load of `recv`. -/
  | loadHead (v : V) (headCached tail : Nat)
  | write (v : V) (headCached tail : Nat)
  | store (v : V) (headCached tail : Nat)
  deriving DecidableEq

/-- Program counter of the consumer. -/
inductive RxPc (V : Type)
  | idle
  /-- `_start_read`: the load of `recv`. -/
  | load (mode : Mode)
  /-- `_start_read`: the copy says empty, the load of `sender`. -/
  | loadTail (mode : Mode) (head : Nat)
  /-- The slot. -/
  | read (t : Token)
  /-- The store to `recv`. -/
  | store (t : Token) (msg : Option V)
  deriving DecidableEq

/-- The queue, its producer, its consumer and the history. -/
structure St (V : Type) where
  /-- `head_cached` and `tail`. -/
  sender : Nat
  /-- `tail_cached` and `head`. -/
  recv : Nat
  slot : Nat → Option V
  tx : TxPc V
  rx : RxPc V
  /-- The tokens issued and not redeemed. -/
  tokens : List Token
  pushed : List V
  /-- Number of messages popped: one more than the last one whose slot was released. -/
  claimed : Nat
  returned : List (Nat × Option V)
  /-- For each failed push, the number of unpopped messages when it loaded `recv`. -/
  refused : List Nat
  /-- For each `None` of `pop` or `start_read`, the number of unpopped messages when it loaded
  `sender`. -/
  missed : List Nat

/-- A call starts, or a side takes a step. -/
inductive Act (V : Type)
  | push (v : V)
  | start (mode : Mode)
  | redeem (t : Token)
  | goTx
  | goRx

section Step

variable (r : Ring) {V : Type}

/-- `ArrayQueueSpsc::new`. -/
def St.new : St V := ⟨0, 0, fun _ => none, .idle, .idle, [], [], 0, [], [], []⟩

/-- Messages pushed and not claimed. -/
def St.unpopped (s : St V) : Nat := s.pushed.length - s.claimed

/-- `_start_read` has found a message. -/
def St.found (s : St V) (mode : Mode) (t : Token) : St V :=
  if mode = .select then { s with rx := .idle, tokens := t :: s.tokens }
  else { s with rx := .read t }

/-- One step of `_try_push`. -/
def stepTx (s : St V) : Option (St V) :=
  match s.tx with
  | .idle => none
  | .load v =>
    let headCached := high r.word s.sender
    let tail := low r.word s.sender
    if r.addLap headCached = tail then some { s with tx := .loadHead v headCached tail }
    else some { s with tx := .write v headCached tail }
  | .loadHead v headCached tail =>
    let head := low r.word s.recv
    if head = headCached then some { s with tx := .idle, refused := s.unpopped :: s.refused }
    else some { s with tx := .write v head tail }
  | .write v headCached tail =>
    some { s with
      slot := update s.slot (r.index tail) (some v)
      tx := .store v headCached tail }
  | .store v headCached tail =>
    some { s with
      sender := pack r.word headCached (r.next tail)
      tx := .idle
      pushed := s.pushed ++ [v] }

/-- One step of `pop`, `pop_cached`, `start_read` or `read`. -/
def stepRx (s : St V) : Option (St V) :=
  match s.rx with
  | .idle => none
  | .load mode =>
    let head := low r.word s.recv
    let tailCached := high r.word s.recv
    if tailCached = head then
      if mode = .popCached then some { s with rx := .idle }
      else some { s with rx := .loadTail mode head }
    else some (s.found mode (readToken r head tailCached s.claimed))
  | .loadTail mode head =>
    let tail := low r.word s.sender
    if head = tail then some { s with rx := .idle, missed := s.unpopped :: s.missed }
    else some (s.found mode (readToken r head tail s.claimed))
  | .read t => some { s with rx := .store t (s.slot t.index) }
  | .store t msg =>
    some { s with
      recv := t.stamp
      rx := .idle
      claimed := t.k + 1
      returned := s.returned ++ [(t.k, msg)] }

/-- One action; `none` if it is not possible now. -/
def step (s : St V) : Act V → Option (St V)
  | .push v => if s.tx matches .idle then some { s with tx := .load v } else none
  | .start mode => if s.rx matches .idle then some { s with rx := .load mode } else none
  | .redeem t =>
    if (s.rx matches .idle) ∧ t ∈ s.tokens then
      some { s with rx := .read t, tokens := s.tokens.erase t }
    else none
  | .goTx => stepTx r s
  | .goRx => stepRx r s

/-- One producer and one consumer. -/
def system : System (St V) (Act V) where
  init s := s = St.new
  step := step r

/-- The consumer calls `pop` and `pop_cached` only. -/
def popOnly (_ : St V) : Act V → Prop
  | .start mode => mode ≠ .select
  | .push _ | .redeem _ | .goTx | .goRx => True

/-- No token is outstanding when the consumer starts to receive or to select. -/
def tokenOk (s : St V) : Act V → Prop
  | .start _ => s.tokens = []
  | .push _ | .redeem _ | .goTx | .goRx => True

end Step

/-! ## The invariant -/

section Invariant

variable {r : Ring} {V : Type} {s t : St V} {hc tc : Nat}

/-- What the producer knows; `hc` is the number of the position in `sender`. -/
def TxPc.Fits (r : Ring) (hc : Nat) (s : St V) : TxPc V → Prop
  | .idle | .load _ => True
  | .loadHead _ headCached tail =>
    headCached = r.enc hc ∧ tail = r.enc s.pushed.length ∧ s.pushed.length = hc + r.cap
  | .write _ headCached tail => tail = r.enc s.pushed.length ∧
      ∃ n, headCached = r.enc n ∧ hc ≤ n ∧ n ≤ s.claimed ∧ s.pushed.length < n + r.cap
  | .store v headCached tail => s.slot (s.pushed.length % r.cap) = some v ∧
      tail = r.enc s.pushed.length ∧
      ∃ n, headCached = r.enc n ∧ hc ≤ n ∧ n ≤ s.claimed ∧ s.pushed.length < n + r.cap

/-- What the consumer knows; `tc` is the number of the position in `recv`. -/
def RxPc.Fits (r : Ring) (tc : Nat) (s : St V) : RxPc V → Prop
  | .idle => True
  | .load _ => s.tokens = []
  | .loadTail _ head => s.tokens = [] ∧ head = r.enc s.claimed ∧ tc = s.claimed
  | .read t => s.tokens = [] ∧ t.Fresh r tc s.claimed s.pushed.length
  | .store t msg => s.tokens = [] ∧ t.Fresh r tc s.claimed s.pushed.length ∧
      msg = s.pushed[s.claimed]?

/-- `hc` and `tc` are the numbers of the two copies. -/
structure Inv (r : Ring) (hc tc : Nat) (s : St V) : Prop where
  sender : s.sender = pack r.word (r.enc hc) (r.enc s.pushed.length)
  recv : s.recv = pack r.word (r.enc tc) (r.enc s.claimed)
  head : hc ≤ s.claimed ∧ s.claimed ≤ tc
  tail : tc ≤ s.pushed.length ∧ s.pushed.length ≤ hc + r.cap
  tx : s.tx.Fits r hc s
  rx : s.rx.Fits r tc s
  tokens : s.tokens.length ≤ 1 ∧ ∀ t ∈ s.tokens, t.Fresh r tc s.claimed s.pushed.length
  slots : ∀ k, s.claimed ≤ k → k < s.pushed.length → s.slot (k % r.cap) = s.pushed[k]?
  returned : s.returned = handed s.pushed s.claimed
  refused : ∀ n ∈ s.refused, n = r.cap
  missed : ∀ n ∈ s.missed, n = 0

/-- At most `cap` messages are unpopped. -/
theorem Inv.length_le (h : Inv r hc tc s) :
    s.claimed ≤ s.pushed.length ∧ s.pushed.length ≤ s.claimed + r.cap := by
  obtain ⟨h1, h2⟩ := h.head
  obtain ⟨h3, h4⟩ := h.tail
  omega

theorem Inv.sender_high (h : Inv r hc tc s) : high r.word s.sender = r.enc hc := by
  rw [h.sender, high_pack (Ring.enc_lt _) (Ring.enc_lt _)]

theorem Inv.sender_low (h : Inv r hc tc s) : low r.word s.sender = r.enc s.pushed.length := by
  rw [h.sender, low_pack (Ring.enc_lt _)]

theorem Inv.recv_high (h : Inv r hc tc s) : high r.word s.recv = r.enc tc := by
  rw [h.recv, high_pack (Ring.enc_lt _) (Ring.enc_lt _)]

theorem Inv.recv_low (h : Inv r hc tc s) : low r.word s.recv = r.enc s.claimed := by
  rw [h.recv, low_pack (Ring.enc_lt _)]

/-- The copy says full when it is `cap` behind. -/
theorem Inv.full_iff (h : Inv r hc tc s) :
    r.addLap (r.enc hc) = r.enc s.pushed.length ↔ s.pushed.length = hc + r.cap := by
  have hcap := r.cap_lt_period
  obtain ⟨h1, h2⟩ := h.head
  obtain ⟨h3, h4⟩ := h.tail
  rw [Ring.addLap_enc, Ring.enc_eq_iff (by omega) (by omega)]
  exact eq_comm

theorem Inv.claimed_eq_copy (h : Inv r hc tc s) : r.enc s.claimed = r.enc hc ↔ s.claimed = hc := by
  have hcap := r.cap_lt_period
  obtain ⟨h1, h2⟩ := h.head
  obtain ⟨h3, h4⟩ := h.tail
  exact Ring.enc_eq_iff (by omega) (by omega)

/-- The copy says empty when it is the position itself. -/
theorem Inv.empty_iff (h : Inv r hc tc s) : r.enc tc = r.enc s.claimed ↔ tc = s.claimed := by
  have hcap := r.cap_lt_period
  obtain ⟨h1, h2⟩ := h.head
  obtain ⟨h3, h4⟩ := h.tail
  exact Ring.enc_eq_iff (by omega) (by omega)

theorem Inv.tail_eq (h : Inv r hc tc s) :
    r.enc s.claimed = r.enc s.pushed.length ↔ s.claimed = s.pushed.length := by
  have hcap := r.cap_lt_period
  have hlen := h.length_le
  exact Ring.enc_eq_iff (by omega) (by omega)

/-- An empty ring. -/
theorem inv_new : Inv r 0 0 (St.new : St V) := by
  have hzero : r.enc 0 = 0 := by simp [Ring.enc]
  refine ⟨?_, ?_, ⟨Nat.le_refl _, Nat.le_refl _⟩, ⟨Nat.le_refl _, Nat.zero_le _⟩, trivial, trivial,
    ⟨Nat.zero_le _, by rintro _ ⟨⟩⟩, ?_, rfl, by rintro _ ⟨⟩, by rintro _ ⟨⟩⟩
  · simp [St.new, hzero, pack]
  · simp [St.new, hzero, pack]
  · intro k _ hk
    exact absurd hk (Nat.not_lt_zero k)

/-! ## The producer -/

/-- **A step of the producer keeps the invariant.** -/
theorem Inv.goTx (h : Inv r hc tc s) (hstep : stepTx r s = some t) : ∃ hc', Inv r hc' tc t := by
  have htx := h.tx
  have hlen := h.length_le
  cases hpc : s.tx with
  | idle => simp [stepTx, hpc] at hstep
  | load v =>
    simp only [stepTx, hpc, h.sender_high, h.sender_low] at hstep
    split_ifs at hstep with hfull
    · cases hstep
      exact ⟨hc, { h with tx := ⟨rfl, rfl, h.full_iff.mp hfull⟩ }⟩
    · cases hstep
      have hroom : s.pushed.length < hc + r.cap :=
        lt_of_le_of_ne h.tail.2 fun heq => hfull (h.full_iff.mpr heq)
      exact ⟨hc, { h with tx := ⟨rfl, hc, rfl, Nat.le_refl _, h.head.1, hroom⟩ }⟩
  | loadHead v headCached tail =>
    rw [hpc] at htx
    obtain ⟨rfl, rfl, hfull⟩ := htx
    simp only [stepTx, hpc, h.recv_low] at hstep
    split_ifs at hstep with hsame
    · cases hstep
      refine ⟨hc, { h with tx := trivial, refused := fun n hn => ?_ }⟩
      rcases List.mem_cons.mp hn with rfl | hn
      -- the copy of the head was exact, so the ring is full
      · have hclaimed := h.claimed_eq_copy.mp hsame
        rw [St.unpopped]
        omega
      · exact h.refused n hn
    · cases hstep
      have hne : s.claimed ≠ hc := fun heq => hsame (by rw [heq])
      have hroom : s.pushed.length < s.claimed + r.cap := by
        have := h.head.1
        omega
      exact ⟨hc, { h with tx := ⟨rfl, s.claimed, rfl, h.head.1, Nat.le_refl _, hroom⟩ }⟩
  | write v headCached tail =>
    rw [hpc] at htx
    obtain ⟨rfl, n, rfl, hle, hclaimed, hroom⟩ := htx
    simp only [stepTx, hpc] at hstep
    cases hstep
    have hindex : r.index (r.enc s.pushed.length) = s.pushed.length % r.cap := Ring.index_enc _
    rw [hindex]
    have hrx := h.rx
    refine ⟨hc, { h with
      tx := ⟨update_self .., rfl, n, rfl, hle, hclaimed, hroom⟩
      rx := ?_
      slots := fun k hk hlt => ?_ }⟩
    · cases hrxpc : s.rx <;> rw [hrxpc] at hrx <;> exact hrx
    · -- the unpopped messages are in other slots
      have hlt' : k < s.pushed.length := hlt
      have hk' : s.claimed ≤ k := hk
      have hne : k % r.cap ≠ s.pushed.length % r.cap := mod_ne hlt' (by omega)
      exact (update_of_ne hne ..).trans (h.slots k hk' hlt')
  | store v headCached tail =>
    rw [hpc] at htx
    obtain ⟨hslot, rfl, n, rfl, hle, hclaimed, hroom⟩ := htx
    simp only [stepTx, hpc] at hstep
    cases hstep
    have hnew : (s.pushed ++ [v]).length = s.pushed.length + 1 := by simp
    have hget (k : Nat) (hk : k < s.pushed.length) : (s.pushed ++ [v])[k]? = s.pushed[k]? :=
      List.getElem?_append_left hk
    have htail := h.tail.1
    have hhead := h.head.2
    -- the message becomes visible: `n` is the new copy of the head
    refine ⟨n, ?_, h.recv, ⟨hclaimed, h.head.2⟩, ⟨?_, ?_⟩, trivial, ?_, ⟨h.tokens.1, ?_⟩, ?_, ?_,
      h.refused, h.missed⟩
    · show pack r.word (r.enc n) (r.next (r.enc s.pushed.length)) = _
      rw [Ring.next_enc, hnew]
    · show tc ≤ (s.pushed ++ [v]).length
      omega
    · show (s.pushed ++ [v]).length ≤ n + r.cap
      omega
    · have hrx := h.rx
      cases hrxpc : s.rx with
      | idle => exact trivial
      | load | loadTail => rw [hrxpc] at hrx; exact hrx
      | read tok =>
        rw [hrxpc] at hrx
        refine ⟨hrx.1, ?_⟩
        rw [hnew]
        exact hrx.2.push
      | store tok msg =>
        rw [hrxpc] at hrx
        obtain ⟨htokens, hfresh, hmsg⟩ := hrx
        obtain ⟨m, _, _, hlt, hm⟩ := hfresh.stamp
        refine ⟨htokens, ?_, ?_⟩
        · rw [hnew]
          exact hfresh.push
        · show msg = (s.pushed ++ [v])[s.claimed]?
          rw [hget s.claimed (by omega)]
          exact hmsg
    · intro tok htok
      rw [hnew]
      exact (h.tokens.2 tok htok).push
    · intro k hk hlt
      have hlt' : k < (s.pushed ++ [v]).length := hlt
      rcases Nat.lt_or_ge k s.pushed.length with hold | hge
      · rw [hget k hold]
        exact h.slots k hk hold
      · obtain rfl : k = s.pushed.length := by omega
        show s.slot _ = _
        rw [hslot]
        simp
    · show s.returned = handed (s.pushed ++ [v]) s.claimed
      rw [handed_push hlen.1]
      exact h.returned

/-! ## The consumer -/

/-- A message was found: `tail` is the number of a position behind it. -/
theorem Inv.found {mode : Mode} {n : Nat} (h : Inv r hc tc s) (htokens : s.tokens = [])
    (hle : tc ≤ n) (hlt : s.claimed < n) (hn : n ≤ s.pushed.length) :
    Inv r hc tc (s.found mode (readToken r (r.enc s.claimed) (r.enc n) s.claimed)) := by
  have hfresh : (readToken r (r.enc s.claimed) (r.enc n) s.claimed).Fresh r tc s.claimed
      s.pushed.length := fresh_readToken hle hlt hn
  unfold St.found
  split_ifs
  · refine { h with rx := trivial, tokens := ⟨?_, ?_⟩ }
    · show (_ :: s.tokens).length ≤ 1
      rw [htokens]
      exact Nat.le_refl _
    · intro tok htok
      rw [htokens] at htok
      obtain rfl := List.mem_singleton.mp htok
      exact hfresh
  · exact { h with rx := ⟨htokens, hfresh⟩ }

/-- **A step of the consumer keeps the invariant.** -/
theorem Inv.goRx (h : Inv r hc tc s) (hstep : stepRx r s = some t) : ∃ tc', Inv r hc tc' t := by
  have hrx := h.rx
  have hlen := h.length_le
  cases hpc : s.rx with
  | idle => simp [stepRx, hpc] at hstep
  | load mode =>
    rw [hpc] at hrx
    simp only [stepRx, hpc, h.recv_high, h.recv_low] at hstep
    split_ifs at hstep with hempty hmode
    · cases hstep
      exact ⟨tc, { h with rx := trivial }⟩
    · cases hstep
      exact ⟨tc, { h with rx := ⟨hrx, rfl, h.empty_iff.mp hempty⟩ }⟩
    · cases hstep
      have hne : tc ≠ s.claimed := fun heq => hempty (by rw [heq])
      exact ⟨tc, h.found hrx (Nat.le_refl _) (lt_of_le_of_ne h.head.2 hne.symm) h.tail.1⟩
  | loadTail mode head =>
    rw [hpc] at hrx
    obtain ⟨htokens, rfl, hcopy⟩ := hrx
    simp only [stepRx, hpc, h.sender_low] at hstep
    split_ifs at hstep with hempty
    · cases hstep
      refine ⟨tc, { h with rx := trivial, missed := fun n hn => ?_ }⟩
      rcases List.mem_cons.mp hn with rfl | hn
      · have heq := h.tail_eq.mp hempty
        rw [St.unpopped]
        omega
      · exact h.missed n hn
    · cases hstep
      have hne : s.claimed ≠ s.pushed.length := fun heq => hempty (by rw [← heq])
      exact ⟨tc, h.found htokens h.tail.1 (lt_of_le_of_ne hlen.1 hne) (Nat.le_refl _)⟩
  | read tok =>
    rw [hpc] at hrx
    obtain ⟨htokens, hfresh⟩ := hrx
    simp only [stepRx, hpc] at hstep
    cases hstep
    obtain ⟨m, _, _, hlt, hm⟩ := hfresh.stamp
    have hmsg : s.slot tok.index = s.pushed[s.claimed]? := by
      rw [hfresh.index]
      exact h.slots s.claimed (Nat.le_refl _) (by omega)
    exact ⟨tc, { h with rx := ⟨htokens, hfresh, hmsg⟩ }⟩
  | store tok msg =>
    rw [hpc] at hrx
    obtain ⟨htokens, hfresh, hmsg⟩ := hrx
    simp only [stepRx, hpc] at hstep
    cases hstep
    obtain ⟨m, hstamp, hle, hlt, hm⟩ := hfresh.stamp
    have hk : tok.k + 1 = s.claimed + 1 := by rw [hfresh.k]
    rw [hk]
    have hhead := h.head.1
    -- the slot is free again: `m` is the new copy of the tail
    refine ⟨m, h.sender, hstamp, ⟨Nat.le_succ_of_le hhead, hlt⟩, ⟨hm, h.tail.2⟩, ?_, trivial,
      ?_, ?_, ?_, h.refused, h.missed⟩
    · have htx := h.tx
      cases htxpc : s.tx with
      | idle | load v => exact trivial
      | loadHead v headCached tail => rw [htxpc] at htx; exact htx
      | write v headCached tail =>
        rw [htxpc] at htx
        obtain ⟨htail, n, hn, h1, h2, h3⟩ := htx
        exact ⟨htail, n, hn, h1, Nat.le_succ_of_le h2, h3⟩
      | store v headCached tail =>
        rw [htxpc] at htx
        obtain ⟨hslot, htail, n, hn, h1, h2, h3⟩ := htx
        exact ⟨hslot, htail, n, hn, h1, Nat.le_succ_of_le h2, h3⟩
    · exact only_of_eq_nil htokens
    · intro k hk hlt
      exact h.slots k (Nat.le_of_succ_le hk) hlt
    · show s.returned ++ [(tok.k, msg)] = handed s.pushed (s.claimed + 1)
      rw [handed_succ, h.returned, hfresh.k, hmsg]

/-! ## Runs -/

/-- **Every action keeps the invariant**, up to the copies. -/
theorem Inv.step {a : Act V} (h : Inv r hc tc s) (hok : tokenOk s a)
    (hstep : step r s a = some t) : ∃ hc' tc', Inv r hc' tc' t := by
  cases a with
  | push v =>
    simp only [Spsc.step] at hstep
    split_ifs at hstep
    cases hstep
    exact ⟨hc, tc, { h with tx := trivial }⟩
  | start mode =>
    simp only [Spsc.step] at hstep
    split_ifs at hstep
    cases hstep
    exact ⟨hc, tc, { h with rx := hok }⟩
  | redeem tok =>
    simp only [Spsc.step] at hstep
    split_ifs at hstep with hidle
    cases hstep
    have hfresh := h.tokens.2 tok hidle.2
    have hnil := erase_eq_nil h.tokens.1 hidle.2
    exact ⟨hc, tc, { h with rx := ⟨hnil, hfresh⟩, tokens := only_of_eq_nil hnil }⟩
  | goTx =>
    obtain ⟨hc', hinv⟩ := h.goTx hstep
    exact ⟨hc', tc, hinv⟩
  | goRx =>
    obtain ⟨tc', hinv⟩ := h.goRx hstep
    exact ⟨hc, tc', hinv⟩

theorem inv_of_reach (h : Reach (system r) tokenOk s) : ∃ hc tc, Inv r hc tc s := by
  refine h.invariant (P := fun s => ∃ hc tc, Inv r hc tc s) ?_ ?_
  · rintro _ rfl
    exact ⟨0, 0, inv_new⟩
  · rintro s a t ⟨hc, tc, hs⟩ hok hstep
    exact hs.step hok hstep

/-! ## The refinement -/

/-- Without `select` there are no tokens. -/
def RxPc.NoSelect : RxPc V → Prop
  | .load mode | .loadTail mode _ => mode ≠ .select
  | .idle | .read _ | .store _ _ => True

theorem found_of_ne {mode : Mode} (hmode : mode ≠ .select) (tok : Token) :
    s.found mode tok = { s with rx := .read tok } := if_neg hmode

/-- The producer leaves the consumer and its tokens alone. -/
theorem rx_of_stepTx (h : stepTx r s = some t) : t.rx = s.rx ∧ t.tokens = s.tokens := by
  cases hpc : s.tx with
  | idle => simp [stepTx, hpc] at h
  | load | loadHead =>
    simp only [stepTx, hpc] at h
    split_ifs at h <;> cases h <;> exact ⟨rfl, rfl⟩
  | write | store => simp only [stepTx, hpc] at h; cases h; exact ⟨rfl, rfl⟩

/-- Without `start_read` there is no token. -/
theorem tokens_of_step {a : Act V} (hrx : s.rx.NoSelect) (htokens : s.tokens = [])
    (hok : popOnly s a) (hstep : step r s a = some t) : t.rx.NoSelect ∧ t.tokens = [] := by
  cases a with
  | push v =>
    simp only [step] at hstep
    split_ifs at hstep
    cases hstep
    exact ⟨hrx, htokens⟩
  | start mode =>
    simp only [step] at hstep
    split_ifs at hstep
    cases hstep
    exact ⟨hok, htokens⟩
  | redeem tok =>
    simp only [step, htokens] at hstep
    simp at hstep
  | goTx =>
    obtain ⟨hrx', htokens'⟩ := rx_of_stepTx hstep
    rw [hrx', htokens']
    exact ⟨hrx, htokens⟩
  | goRx =>
    simp only [step, stepRx] at hstep
    cases hpc : s.rx with
    | idle => simp [hpc] at hstep
    | load mode =>
      rw [hpc] at hrx
      simp only [hpc, found_of_ne hrx] at hstep
      split_ifs at hstep
      · cases hstep; exact ⟨trivial, htokens⟩
      · cases hstep; exact ⟨hrx, htokens⟩
      · cases hstep; exact ⟨trivial, htokens⟩
    | loadTail mode head =>
      rw [hpc] at hrx
      simp only [hpc, found_of_ne hrx] at hstep
      split_ifs at hstep
      · cases hstep; exact ⟨trivial, htokens⟩
      · cases hstep; exact ⟨trivial, htokens⟩
    | read | store => simp only [hpc] at hstep; cases hstep; exact ⟨trivial, htokens⟩

/-- **Without tokens the invariant always holds.** -/
theorem inv_of_popOnly (h : Reach (system r) popOnly s) :
    (∃ hc tc, Inv r hc tc s) ∧ s.rx.NoSelect ∧ s.tokens = [] := by
  refine h.invariant (P := fun s => (∃ hc tc, Inv r hc tc s) ∧ s.rx.NoSelect ∧ s.tokens = []) ?_ ?_
  · rintro _ rfl
    exact ⟨⟨0, 0, inv_new⟩, trivial, rfl⟩
  · rintro s a t ⟨⟨hc, tc, hinv⟩, hrx, htokens⟩ hok hstep
    have htoken : tokenOk s a := by cases a <;> first | exact htokens | exact trivial
    exact ⟨hinv.step htoken hstep, tokens_of_step hrx htokens hok hstep⟩

/-- A queue of capacity `cap`. -/
structure IsFifo (r : Ring) (s : St V) : Prop where
  /-- The consumer returns the pushed values in order, each once. -/
  values : s.returned.map Prod.snd = (s.pushed.take s.claimed).map some
  capacity : s.claimed ≤ s.pushed.length ∧ s.pushed.length ≤ s.claimed + r.cap
  /-- The two sides are never at the same slot. -/
  apart : ∀ v headCached tail t, s.tx = .write v headCached tail → s.rx = .read t →
    r.index tail ≠ t.index
  /-- A push fails when `cap` messages are unpopped, `pop` returns `None` when none is. -/
  refused : ∀ n ∈ s.refused, n = r.cap
  missed : ∀ n ∈ s.missed, n = 0

/-- What the invariant says of the order. -/
theorem Inv.isFifo (h : Inv r hc tc s) : IsFifo r s := by
  have htx := h.tx
  have hrx := h.rx
  have hlen := h.length_le
  refine ⟨?_, hlen, ?_, h.refused, h.missed⟩
  · rw [h.returned]
    exact handed_values hlen.1
  · intro v headCached tail tok htxpc hrxpc
    rw [htxpc] at htx
    rw [hrxpc] at hrx
    obtain ⟨rfl, n, _, _, hn, hroom⟩ := htx
    obtain ⟨_, hfresh⟩ := hrx
    obtain ⟨m, _, _, hlt, hm⟩ := hfresh.stamp
    rw [Ring.index_enc, hfresh.index]
    exact (mod_ne (by omega) (by omega)).symm

/-- **`ArrayQueueSpsc` refines a bounded queue.** -/
theorem arraySpsc_isFifo (cap : Nat) (hpos : 0 < cap) (hlt : cap < 2 ^ 31)
    (h : Reach (system (ring cap hpos hlt)) popOnly s) : IsFifo (ring cap hpos hlt) s := by
  obtain ⟨⟨hc, tc, hinv⟩, _⟩ := inv_of_popOnly h
  exact hinv.isFifo

instance (s : St V) : (a : Act V) → Decidable (popOnly s a)
  | .start mode => inferInstanceAs (Decidable (mode ≠ .select))
  | .push _ | .redeem _ | .goTx | .goRx => instDecidableTrue

instance (s : St V) : (a : Act V) → Decidable (tokenOk s a)
  | .start _ => inferInstanceAs (Decidable (s.tokens = []))
  | .push _ | .redeem _ | .goTx | .goRx => instDecidableTrue

/-- Capacity two: a refused push, three messages in two slots and a pop that finds nothing. -/
theorem arraySpsc_isFifo_two : ∃ s : St Nat,
    Reach (system (ring 2 (by decide) (by decide))) popOnly s ∧
      IsFifo (ring 2 (by decide) (by decide)) s ∧
      s.returned = [(0, some 7), (1, some 8), (2, some 9)] ∧ s.refused = [2] ∧ s.missed = [0] := by
  have hnew : Reach (system (V := Nat) (ring 2 (by decide) (by decide))) popOnly St.new := .init rfl
  obtain ⟨s, hs, hret⟩ := hnew.exists_of_run
    [.push 7, .goTx, .goTx, .goTx, .push 8, .goTx, .goTx, .goTx, .push 9, .goTx, .goTx,
      .start .pop, .goRx, .goRx, .goRx, .goRx, .push 9, .goTx, .goTx, .goTx, .goTx,
      .start .popCached, .goRx, .goRx, .goRx, .start .popCached, .goRx,
      .start .pop, .goRx, .goRx, .goRx, .goRx, .start .pop, .goRx, .goRx]
    (fun s => s.returned = [(0, some 7), (1, some 8), (2, some 9)] ∧ s.refused = [2] ∧
      s.missed = [0]) (by decide +kernel)
  exact ⟨s, hs, arraySpsc_isFifo 2 _ _ hs, hret⟩

end Invariant

end Crossfire.ArrayQueue.Spsc
