import Crossfire.Lib.Interleaving
import Crossfire.Lib.Fifo
import Crossfire.Lib.Slots
import Crossfire.ArrayQueue.Token

/-!
# `ArrayQueueMpsc`: a bounded queue for many producers and one consumer

`array_queue_mpsc.rs` at the granularity of atomic operations and slot accesses. A producer claims a
position by compare-exchange on the word `sender`, which holds the tail and an old copy of the head;
it looks at the head itself only when the copy says full. It does not look at the stamp of its slot.
The consumer waits for that stamp, reads, and releases the slot by its store to `recv`.

The history numbers the messages by the compare-exchanges on the tail. It also keeps for every push
call how many messages it pushed and the largest number of unpopped messages at any instant of it
(`peak`), and what it returned (`Answer`).

The compare-exchange can be fooled by a tail that has come around, and so can the look at the head:
`wrapOk` says how far the tail may move between the read of `sender` and the use of what was read.
-/

set_option autoImplicit false

namespace Crossfire.ArrayQueue.Mpsc

open Lib.Interleaving Lib.Packed Lib.Lap Lib.Fifo Lib.Slots Function

/-- Program counter of a producer in `push_with_ptr`, or in `try_push_oneshot` (`one`). The number
`k` is that of the tail in the word `sender_val`. -/
inductive TxPc (V : Type)
  | idle
  | load (v : V) (one : Bool)
  /-- The copy says full: the load of `recv`. -/
  | loadHead (v : V) (one : Bool) (senderVal k : Nat)
  /-- `_try_push`: the compare-exchange. -/
  | cas (v : V) (one : Bool) (senderVal headCached k : Nat)
  /-- `_try_push`: the value. -/
  | write (v : V) (tail k : Nat)
  /-- `_try_push`: the stamp. -/
  | publish (v : V) (tail k : Nat)
  deriving DecidableEq

/-- Program counter of the consumer. -/
inductive RxPc (V : Type)
  | idle
  /-- `_start_read`: the load of `recv`. -/
  | load (mode : Mode)
  /-- `_start_read`: the copy says empty, the load of `sender`. -/
  | loadTail (mode : Mode) (head : Nat)
  /-- `_read`: the wait for the stamp. -/
  | wait (mode : Mode) (t : Token) (target : Nat)
  /-- The slot. -/
  | read (t : Token)
  /-- The store to `recv`. -/
  | store (t : Token) (msg : Option V)
  deriving DecidableEq

/-- The queue, its pushers, its consumer and the history. -/
structure St (ι V : Type) where
  /-- `head_cached` and `tail`. -/
  sender : Nat
  /-- `tail_cached` and `head`. -/
  recv : Nat
  value : Nat → Option V
  stamp : Nat → Nat
  tx : ι → TxPc V
  rx : RxPc V
  /-- The tokens issued and not redeemed. -/
  tokens : List Token
  pushed : List V
  /-- Number of messages popped: one more than the last one whose slot was released. -/
  claimed : Nat
  returned : List (Nat × Option V)
  /-- The number of messages pushed by the current call of a producer. -/
  claims : ι → Nat
  /-- The largest number of unpopped messages at any instant of the current call. -/
  peak : ι → Nat
  answers : List Answer
  /-- For each `None` of `pop` or `start_read`, the number of unpopped messages when it loaded
  `sender`. -/
  missed : List Nat

/-- A call starts, or the agent named takes a step. -/
inductive Act (ι V : Type)
  | push (i : ι) (v : V) (one : Bool)
  | start (mode : Mode)
  | redeem (t : Token)
  /-- `choice`: the weak compare-exchange fails spuriously. -/
  | goTx (i : ι) (choice : Bool)
  | goRx

section Step

variable (r : Ring) {ι V : Type} [DecidableEq ι]

/-- `ArrayQueueMpsc::new`. -/
def St.new : St ι V :=
  ⟨0, 0, fun _ => none, fun i => i, fun _ => .idle, .idle, [], [], 0, [], fun _ => 0, fun _ => 0,
    [], []⟩

/-- Messages pushed and not claimed. -/
def St.unpopped (s : St ι V) : Nat := s.pushed.length - s.claimed

/-- Pusher `i` goes to `pc`. -/
def St.setTx (s : St ι V) (i : ι) (pc : TxPc V) : St ι V := { s with tx := update s.tx i pc }

/-- A push call returns. -/
def St.answer (s : St ι V) (i : ι) (result : Option Bool) : St ι V :=
  { s with
    tx := update s.tx i .idle
    answers := ⟨result, s.claims i, s.peak i⟩ :: s.answers }

/-- The test of the copy, in the word `sender` that was just read. -/
def St.tryPush (s : St ι V) (i : ι) (v : V) (one : Bool) : St ι V :=
  if r.addLap (high r.word s.sender) = low r.word s.sender then
    s.setTx i (.loadHead v one s.sender s.pushed.length)
  else s.setTx i (.cas v one s.sender (high r.word s.sender) s.pushed.length)

/-- The compare-exchange succeeds. The number of unpopped messages grows here only. -/
def St.claim (s : St ι V) (i : ι) (v : V) (headCached : Nat) : St ι V :=
  { s with
    sender := pack r.word headCached (r.next (low r.word s.sender))
    tx := update s.tx i (.write v (low r.word s.sender) s.pushed.length)
    pushed := s.pushed ++ [v]
    claims := update s.claims i (s.claims i + 1)
    peak := fun j => max (s.peak j) (s.pushed.length + 1 - s.claimed) }

/-- One step of a producer. -/
def stepTx (s : St ι V) (i : ι) (choice : Bool) : Option (St ι V) :=
  match s.tx i with
  | .idle => none
  | .load v one => some (s.tryPush r i v one)
  | .loadHead v one senderVal k =>
    let head := low r.word s.recv
    if head = high r.word senderVal then some (s.answer i (some false))
    else some (s.setTx i (.cas v one senderVal head k))
  | .cas v one senderVal headCached _ =>
    if s.sender = senderVal ∧ choice = false then some (s.claim r i v headCached)
    else if one then some (s.answer i none)
    else some (s.tryPush r i v false)
  | .write v tail k =>
    some { s with
      value := update s.value (r.index tail) (some v)
      tx := update s.tx i (.publish v tail k) }
  | .publish _ tail _ =>
    -- no overflow, by `Ring.enc_add_one_lt`
    some ({ s with
      stamp := update s.stamp (r.index tail) (tail + 1) }.answer i (some true))

/-- `_start_read` has found a message; `_read` waits for its stamp. -/
def St.found (s : St ι V) (mode : Mode) (head tailCached : Nat) : St ι V :=
  { s with rx := .wait mode (readToken r head tailCached s.claimed) (head + 1) }

/-- One step of `pop`, `pop_cached`, `start_read` or `read`. -/
def stepRx (s : St ι V) : Option (St ι V) :=
  match s.rx with
  | .idle => none
  | .load mode =>
    let head := low r.word s.recv
    let tailCached := high r.word s.recv
    if tailCached = head then
      if mode = .popCached then some { s with rx := .idle }
      else some { s with rx := .loadTail mode head }
    else some (s.found r mode head tailCached)
  | .loadTail mode head =>
    let tail := low r.word s.sender
    if head = tail then some { s with rx := .idle, missed := s.unpopped :: s.missed }
    else some (s.found r mode head tail)
  | .wait mode t target =>
    if s.stamp t.index = target then
      if mode = .select then some { s with rx := .idle, tokens := t :: s.tokens }
      else some { s with rx := .read t }
    else some s
  | .read t => some { s with rx := .store t (s.value t.index) }
  | .store t msg =>
    some { s with
      recv := t.stamp
      rx := .idle
      claimed := t.k + 1
      returned := s.returned ++ [(t.k, msg)] }

/-- One action; `none` if it is not possible now. -/
def step (s : St ι V) : Act ι V → Option (St ι V)
  | .push i v one =>
    if s.tx i matches .idle then
      some { s with
        tx := update s.tx i (.load v one)
        claims := update s.claims i 0
        peak := update s.peak i s.unpopped }
    else none
  | .start mode => if s.rx matches .idle then some { s with rx := .load mode } else none
  | .redeem t =>
    if (s.rx matches .idle) ∧ t ∈ s.tokens then
      some { s with rx := .read t, tokens := s.tokens.erase t }
    else none
  | .goTx i choice => stepTx r s i choice
  | .goRx => stepRx r s

/-- Any number of producers and one consumer. -/
def system : System (St ι V) (Act ι V) where
  init s := s = St.new
  step := step r

/-- The number of the tail a producer works with. -/
def TxPc.loaded : TxPc V → Option Nat
  | .loadHead _ _ _ k | .cas _ _ _ _ k => some k
  | .idle | .load _ _ | .write _ _ _ | .publish _ _ _ => none

/-- The comparison of the head with the copy needs `lap`. -/
def TxPc.slack (lap : Nat) : TxPc V → Nat
  | .loadHead _ _ _ _ => lap
  | .idle | .load _ _ | .cas _ _ _ _ _ | .write _ _ _ | .publish _ _ _ => 0

@[simp]
theorem TxPc.slack_zero (pc : TxPc V) : pc.slack 0 = 0 := by cases pc <;> rfl

/-- When a producer uses the word `sender` that it has read, the tail has since moved by less than a
full wrap, and by less than a full wrap less `lap` when it compares the head with the copy. -/
def wrapOk (lap : Nat) (s : St ι V) : Act ι V → Prop
  | .goTx i _ => ∀ k, (s.tx i).loaded = some k →
      s.pushed.length + (s.tx i).slack lap < k + r.period
  | .push _ _ _ | .start _ | .redeem _ | .goRx => True

/-- The consumer calls `pop` and `pop_cached` only. -/
def popOnly (_ : St ι V) : Act ι V → Prop
  | .start mode => mode ≠ .select
  | .push _ _ _ | .redeem _ | .goTx _ _ | .goRx => True

/-- No token is outstanding when the consumer starts to receive or to select. -/
def tokenOk (s : St ι V) : Act ι V → Prop
  | .start _ => s.tokens = []
  | .push _ _ _ | .redeem _ | .goTx _ _ | .goRx => True

/-! ## What a producer can do -/

/-- The message a producer has claimed and not yet published. -/
def TxPc.writes : TxPc V → Option Nat
  | .write _ _ k | .publish _ _ k => some k
  | .idle | .load _ _ | .loadHead _ _ _ _ | .cas _ _ _ _ _ => none

/-- A producer in front of its compare-exchange. -/
def TxPc.seeks : TxPc V → Prop
  | .load _ _ | .loadHead _ _ _ _ | .cas _ _ _ _ _ => True
  | .idle | .write _ _ _ | .publish _ _ _ => False

/-- The steps of a producer. -/
inductive TxStep (s : St ι V) (i : ι) : St ι V → Prop
  | look (v : V) (one : Bool) (seeks : (s.tx i).seeks)
      (full : r.addLap (high r.word s.sender) = low r.word s.sender) :
      TxStep s i (s.setTx i (.loadHead v one s.sender s.pushed.length))
  | room (v : V) (one : Bool) (seeks : (s.tx i).seeks)
      (room : r.addLap (high r.word s.sender) ≠ low r.word s.sender) :
      TxStep s i (s.setTx i (.cas v one s.sender (high r.word s.sender) s.pushed.length))
  | refuse (v : V) (one : Bool) (senderVal k : Nat) (pc : s.tx i = .loadHead v one senderVal k)
      (same : low r.word s.recv = high r.word senderVal) : TxStep s i (s.answer i (some false))
  | renew (v : V) (one : Bool) (senderVal k : Nat) (pc : s.tx i = .loadHead v one senderVal k)
      (ne : low r.word s.recv ≠ high r.word senderVal) :
      TxStep s i (s.setTx i (.cas v one senderVal (low r.word s.recv) k))
  | giveUp (seeks : (s.tx i).seeks) : TxStep s i (s.answer i none)
  | claim (v : V) (one : Bool) (headCached k : Nat)
      (pc : s.tx i = .cas v one s.sender headCached k) :
      TxStep s i (s.claim r i v headCached)
  | write (v : V) (tail k : Nat) (pc : s.tx i = .write v tail k) :
      TxStep s i { s with
        value := update s.value (r.index tail) (some v)
        tx := update s.tx i (.publish v tail k) }
  | publish (v : V) (tail k : Nat) (pc : s.tx i = .publish v tail k) :
      TxStep s i
        ({ s with stamp := update s.stamp (r.index tail) (tail + 1) }.answer i (some true))

variable {r} {s t : St ι V} {i : ι} {choice : Bool}

theorem txStep_tryPush (v : V) (one : Bool) (hseeks : (s.tx i).seeks) :
    TxStep r s i (s.tryPush r i v one) := by
  unfold St.tryPush
  split_ifs with hfull
  · exact .look v one hseeks hfull
  · exact .room v one hseeks hfull

/-- A step of a producer is one of `TxStep`. -/
theorem txStep_of_stepTx (h : stepTx r s i choice = some t) : TxStep r s i t := by
  unfold stepTx at h
  cases hpc : s.tx i with
  | idle => simp [hpc] at h
  | load v one =>
    simp only [hpc] at h
    cases h
    exact txStep_tryPush v one (by rw [hpc]; trivial)
  | loadHead v one senderVal k =>
    simp only [hpc] at h
    split_ifs at h with hsame
    · cases h
      exact .refuse v one senderVal k hpc hsame
    · cases h
      exact .renew v one senderVal k hpc hsame
  | cas v one senderVal headCached k =>
    simp only [hpc] at h
    split_ifs at h with hcas hone
    · obtain ⟨rfl, _⟩ := hcas
      cases h
      exact .claim v one headCached k hpc
    · cases h
      exact .giveUp (by rw [hpc]; trivial)
    · cases h
      exact txStep_tryPush v false (by rw [hpc]; trivial)
  | write v tail k => simp only [hpc] at h; cases h; exact .write v tail k hpc
  | publish v tail k => simp only [hpc] at h; cases h; exact .publish v tail k hpc

end Step

/-! ## The invariant -/

section Invariant

variable {r : Ring} {ι V : Type} {s t : St ι V} {hc tc : Nat}

/-- The stamp of a published message. -/
def stampOf (r : Ring) (k : Nat) : Nat := r.enc k + 1

/-- The message `k` is claimed. -/
structure PushFits (r : Ring) (pushed : List V) (claimed : Nat) (v : V) (tail k : Nat) : Prop where
  ge : claimed ≤ k
  tail : tail = r.enc k
  value : pushed[k]? = some v

/-- What a producer knows. -/
def TxPc.Fits (r : Ring) (pushed : List V) (claimed : Nat) (value : Nat → Option V) :
    TxPc V → Prop
  | .idle | .load _ _ => True
  | .loadHead _ _ senderVal k => k ≤ pushed.length ∧
      ∃ n, senderVal = pack r.word (r.enc n) (r.enc k) ∧ k = n + r.cap ∧ n ≤ claimed
  | .cas _ _ senderVal headCached k => k ≤ pushed.length ∧
      (∃ n, senderVal = pack r.word (r.enc n) (r.enc k)) ∧
      ∃ m, headCached = r.enc m ∧ m ≤ claimed ∧ k < m + r.cap
  | .write v tail k => PushFits r pushed claimed v tail k
  | .publish v tail k => PushFits r pushed claimed v tail k ∧ value (k % r.cap) = some v

/-- The first unpopped message is published. -/
def Done (s : St ι V) : Prop := ∀ i, (s.tx i).writes ≠ some s.claimed

/-- What the consumer knows; `tc` is the number of the position in `recv`. -/
def RxPc.Fits (r : Ring) (tc : Nat) (s : St ι V) : RxPc V → Prop
  | .idle => True
  | .load _ => s.tokens = []
  | .loadTail _ head => s.tokens = [] ∧ head = r.enc s.claimed ∧ tc = s.claimed
  | .wait _ t target =>
    s.tokens = [] ∧ t.Fresh r tc s.claimed s.pushed.length ∧ target = stampOf r s.claimed
  | .read t => s.tokens = [] ∧ t.Fresh r tc s.claimed s.pushed.length ∧ Done s
  | .store t msg => s.tokens = [] ∧ t.Fresh r tc s.claimed s.pushed.length ∧ Done s ∧
      msg = s.pushed[s.claimed]?

/-- `hc` and `tc` are the numbers of the two copies. -/
structure Inv (r : Ring) (hc tc : Nat) (s : St ι V) : Prop where
  sender : s.sender = pack r.word (r.enc hc) (r.enc s.pushed.length)
  recv : s.recv = pack r.word (r.enc tc) (r.enc s.claimed)
  head : hc ≤ s.claimed ∧ s.claimed ≤ tc
  tail : tc ≤ s.pushed.length ∧ s.pushed.length ≤ hc + r.cap
  tx : ∀ i, (s.tx i).Fits r s.pushed s.claimed s.value
  slots : Stamped r.cap (stampOf r) (fun i => (s.tx i).writes) s.pushed s.value s.stamp
  rx : s.rx.Fits r tc s
  tokens : s.tokens.length ≤ 1 ∧
    ∀ t ∈ s.tokens, t.Fresh r tc s.claimed s.pushed.length ∧ Done s
  returned : s.returned = handed s.pushed s.claimed
  missed : ∀ n ∈ s.missed, n = 0

/-- At most `cap` messages are unpopped. -/
theorem Inv.length_le (h : Inv r hc tc s) :
    s.claimed ≤ s.pushed.length ∧ s.pushed.length ≤ s.claimed + r.cap := by
  obtain ⟨h1, h2⟩ := h.head
  obtain ⟨h3, h4⟩ := h.tail
  omega

theorem Inv.sender_high (h : Inv r hc tc s) : high r.word s.sender = r.enc hc := by
  rw [h.sender, high_pack (Ring.enc_lt _) (Ring.enc_lt _)]

theorem Inv.sender_low (h : Inv r hc tc s) : low r.word s.sender = r.enc s.pushed.length := by
  rw [h.sender, low_pack (Ring.enc_lt _)]

theorem Inv.recv_high (h : Inv r hc tc s) : high r.word s.recv = r.enc tc := by
  rw [h.recv, high_pack (Ring.enc_lt _) (Ring.enc_lt _)]

theorem Inv.recv_low (h : Inv r hc tc s) : low r.word s.recv = r.enc s.claimed := by
  rw [h.recv, low_pack (Ring.enc_lt _)]

/-- The copy says full when it is `cap` behind. -/
theorem Inv.full_iff (h : Inv r hc tc s) :
    r.addLap (high r.word s.sender) = low r.word s.sender ↔ s.pushed.length = hc + r.cap := by
  have hcap := r.cap_lt_period
  obtain ⟨h1, h2⟩ := h.head
  obtain ⟨h3, h4⟩ := h.tail
  rw [h.sender_high, h.sender_low, Ring.addLap_enc, Ring.enc_eq_iff (by omega) (by omega)]
  exact eq_comm

/-- The copy says empty when it is the position itself. -/
theorem Inv.empty_iff (h : Inv r hc tc s) : r.enc tc = r.enc s.claimed ↔ tc = s.claimed := by
  have hcap := r.cap_lt_period
  obtain ⟨h1, h2⟩ := h.head
  obtain ⟨h3, h4⟩ := h.tail
  exact Ring.enc_eq_iff (by omega) (by omega)

theorem Inv.tail_eq (h : Inv r hc tc s) :
    r.enc s.claimed = r.enc s.pushed.length ↔ s.claimed = s.pushed.length := by
  have hcap := r.cap_lt_period
  have hlen := h.length_le
  exact Ring.enc_eq_iff (by omega) (by omega)

/-- The stamps of one lap and the next differ. -/
theorem stampOf_ne (k : Nat) : stampOf r k ≠ stampOf r (k + r.cap) := by
  have hcap := r.cap_lt_period
  have hpos := r.cap_pos
  intro heq
  have henc : r.enc k = r.enc (k + r.cap) := by
    unfold stampOf at heq
    omega
  have := Ring.enc_inj henc (by omega) (by omega)
  omega

/-- The stamps of the first lap differ from the initial ones. -/
theorem ne_stampOf {k : Nat} (hk : k < r.cap) : k ≠ stampOf r k := by
  have hword : r.enc k = k := by
    rw [Ring.enc_eq, Nat.div_eq_of_lt hk, Nat.mod_eq_of_lt hk]
    simp
  rw [stampOf, hword]
  omega

/-- An empty ring. -/
theorem inv_new : Inv r 0 0 (St.new : St ι V) := by
  have hzero : r.enc 0 = 0 := by simp [Ring.enc]
  refine ⟨?_, ?_, ⟨Nat.le_refl _, Nat.le_refl _⟩, ⟨Nat.le_refl _, Nat.zero_le _⟩, fun _ => trivial,
    stamped_nil, trivial, ⟨Nat.zero_le _, by rintro _ ⟨⟩⟩, rfl, by rintro _ ⟨⟩⟩
  · simp [St.new, hzero, pack]
  · simp [St.new, hzero, pack]

/-! ## The consumer -/

theorem Inv.found {mode : Mode} {n : Nat} (h : Inv r hc tc s) (htokens : s.tokens = [])
    (hle : tc ≤ n) (hlt : s.claimed < n) (hn : n ≤ s.pushed.length) :
    Inv r hc tc (s.found r mode (r.enc s.claimed) (r.enc n)) :=
  { h with rx := ⟨htokens, fresh_readToken hle hlt hn, rfl⟩ }

variable {value : Nat → Option V} {pc : TxPc V}

/-- A pop moves no producer but the one that writes its slot. -/
theorem TxPc.Fits.pop {pushed : List V} {n : Nat}
    (h : pc.Fits r pushed n value) (hne : pc.writes ≠ some n) : pc.Fits r pushed (n + 1) value := by
  have hpush {v : V} {tail k : Nat} (hk : PushFits r pushed n v tail k) (hkn : k ≠ n) :
      PushFits r pushed (n + 1) v tail k := by
    refine ⟨?_, hk.tail, hk.value⟩
    have := hk.ge
    omega
  cases pc with
  | idle | load v one => exact trivial
  | loadHead v one senderVal k =>
    obtain ⟨hk, m, hm, hkm, hle⟩ := h
    exact ⟨hk, m, hm, hkm, Nat.le_succ_of_le hle⟩
  | cas v one senderVal headCached k =>
    obtain ⟨hk, hval, m, hm, hle, hlt⟩ := h
    exact ⟨hk, hval, m, hm, Nat.le_succ_of_le hle, hlt⟩
  | write v tail k => exact hpush h fun heq => hne (congrArg some heq)
  | publish v tail k => exact ⟨hpush h.1 fun heq => hne (congrArg some heq), h.2⟩

/-- A message that is still being written does not have its stamp. -/
theorem Inv.done (h : Inv r hc tc s) (hstamp : s.stamp (s.claimed % r.cap) = stampOf r s.claimed) :
    Done s := by
  intro i hi
  exact h.slots.pending i _ hi hstamp

/-- **A step of the consumer keeps the invariant.** -/
theorem Inv.goRx (h : Inv r hc tc s) (hstep : stepRx r s = some t) : ∃ tc', Inv r hc tc' t := by
  have hrx := h.rx
  have hlen := h.length_le
  cases hpc : s.rx with
  | idle => simp [stepRx, hpc] at hstep
  | load mode =>
    rw [hpc] at hrx
    simp only [stepRx, hpc, h.recv_high, h.recv_low] at hstep
    split_ifs at hstep with hempty hmode
    · cases hstep
      exact ⟨tc, { h with rx := trivial }⟩
    · cases hstep
      exact ⟨tc, { h with rx := ⟨hrx, rfl, h.empty_iff.mp hempty⟩ }⟩
    · cases hstep
      have hne : tc ≠ s.claimed := fun heq => hempty (by rw [heq])
      exact ⟨tc, h.found hrx (Nat.le_refl _) (lt_of_le_of_ne h.head.2 hne.symm) h.tail.1⟩
  | loadTail mode head =>
    rw [hpc] at hrx
    obtain ⟨htokens, rfl, hcopy⟩ := hrx
    simp only [stepRx, hpc, h.sender_low] at hstep
    split_ifs at hstep with hempty
    · cases hstep
      refine ⟨tc, { h with rx := trivial, missed := fun n hn => ?_ }⟩
      rcases List.mem_cons.mp hn with rfl | hn
      · have heq := h.tail_eq.mp hempty
        rw [St.unpopped]
        omega
      · exact h.missed n hn
    · cases hstep
      have hne : s.claimed ≠ s.pushed.length := fun heq => hempty (by rw [← heq])
      exact ⟨tc, h.found htokens h.tail.1 (lt_of_le_of_ne hlen.1 hne) (Nat.le_refl _)⟩
  | wait mode tok target =>
    rw [hpc] at hrx
    obtain ⟨htokens, hfresh, rfl⟩ := hrx
    simp only [stepRx, hpc] at hstep
    split_ifs at hstep with hstamp hmode
    · have hdone : Done s := h.done (by rw [← hfresh.index]; exact hstamp)
      cases hstep
      refine ⟨tc, { h with rx := trivial, tokens := ⟨?_, ?_⟩ }⟩
      · show (_ :: s.tokens).length ≤ 1
        rw [htokens]
        exact Nat.le_refl _
      · intro tok' htok
        rw [htokens] at htok
        obtain rfl := List.mem_singleton.mp htok
        exact ⟨hfresh, hdone⟩
    · have hdone : Done s := h.done (by rw [← hfresh.index]; exact hstamp)
      cases hstep
      exact ⟨tc, { h with rx := ⟨htokens, hfresh, hdone⟩ }⟩
    · cases hstep
      exact ⟨tc, h⟩
  | read tok =>
    rw [hpc] at hrx
    obtain ⟨htokens, hfresh, hdone⟩ := hrx
    simp only [stepRx, hpc] at hstep
    cases hstep
    obtain ⟨m, _, _, hlt, hm⟩ := hfresh.stamp
    have hmsg : s.value tok.index = s.pushed[s.claimed]? := by
      rw [hfresh.index]
      exact (h.slots.published s.claimed (by omega) (by omega) hdone).2
    exact ⟨tc, { h with rx := ⟨htokens, hfresh, hdone, hmsg⟩ }⟩
  | store tok msg =>
    rw [hpc] at hrx
    obtain ⟨htokens, hfresh, hdone, hmsg⟩ := hrx
    simp only [stepRx, hpc] at hstep
    cases hstep
    obtain ⟨m, hstamp, hle, hlt, hm⟩ := hfresh.stamp
    have hk : tok.k + 1 = s.claimed + 1 := by rw [hfresh.k]
    rw [hk]
    refine ⟨m, h.sender, hstamp, ⟨Nat.le_succ_of_le h.head.1, hlt⟩, ⟨hm, h.tail.2⟩, ?_, h.slots,
      trivial, ?_, ?_, h.missed⟩
    · intro i
      exact (h.tx i).pop (hdone i)
    · exact only_of_eq_nil htokens
    · show s.returned ++ [(tok.k, msg)] = handed s.pushed (s.claimed + 1)
      rw [handed_succ, h.returned, hfresh.k, hmsg]

/-! ## The producers -/

/-- What the consumer knows depends on the producers only by what they still write. -/
theorem RxPc.Fits.congr {s' : St ι V} {pc : RxPc V} (h : pc.Fits r tc s)
    (htokens : s'.tokens = s.tokens) (hclaimed : s'.claimed = s.claimed)
    (hpushed : s'.pushed = s.pushed) (hdone : Done s → Done s') : pc.Fits r tc s' := by
  cases pc with
  | idle => exact trivial
  | load mode => exact htokens.trans h
  | loadTail mode head =>
    show s'.tokens = [] ∧ head = r.enc s'.claimed ∧ tc = s'.claimed
    rw [htokens, hclaimed]
    exact h
  | wait mode tok target =>
    show s'.tokens = [] ∧ tok.Fresh r tc s'.claimed s'.pushed.length ∧
      target = stampOf r s'.claimed
    rw [htokens, hclaimed, hpushed]
    exact h
  | read tok =>
    refine ⟨htokens.trans h.1, ?_, hdone h.2.2⟩
    rw [hclaimed, hpushed]
    exact h.2.1
  | store tok msg =>
    refine ⟨htokens.trans h.1, ?_, hdone h.2.2.1, ?_⟩
    · rw [hclaimed, hpushed]
      exact h.2.1
    · rw [hclaimed, hpushed]
      exact h.2.2.2

/-- What a call keeps for its answer is not part of the queue. -/
theorem Inv.log (h : Inv r hc tc s) (claims peak : ι → Nat) (answers : List Answer) :
    Inv r hc tc { s with claims := claims, peak := peak, answers := answers } :=
  { h with rx := h.rx.congr rfl rfl rfl id }

/-- The compare-exchange finds the word of its own position only. -/
theorem Inv.cas_eq {senderVal n k : Nat} (h : Inv r hc tc s) (hk : k ≤ s.pushed.length)
    (hwrap : s.pushed.length < k + r.period) (hval : senderVal = pack r.word (r.enc n) (r.enc k))
    (heq : s.sender = senderVal) : k = s.pushed.length := by
  rw [h.sender, hval] at heq
  have henc := (pack_inj (Ring.enc_lt _) (Ring.enc_lt _) (Ring.enc_lt _) (Ring.enc_lt _) heq).2
  exact Ring.enc_inj henc.symm hk hwrap

variable [DecidableEq ι]

variable {i : ι}

theorem Done.update (h : Done s) (hw : pc.writes = none ∨ pc.writes = (s.tx i).writes) (j : ι) :
    (update s.tx i pc j).writes ≠ some s.claimed := by
  by_cases hj : j = i
  · subst hj
    rw [update_self]
    rcases hw with hw | hw
    · rw [hw]
      nofun
    · rw [hw]
      exact h j
  · rw [update_of_ne hj]
    exact h j

/-- A step of a producer away from its slot. -/
theorem Inv.setTx (h : Inv r hc tc s) (hw : pc.writes = (s.tx i).writes)
    (hfits : pc.Fits r s.pushed s.claimed s.value) : Inv r hc tc (s.setTx i pc) where
  sender := h.sender
  recv := h.recv
  head := h.head
  tail := h.tail
  tx := forall_phase (fun j _ => h.tx j) hfits
  slots := by
    show Stamped _ _ (fun j => (update s.tx i pc j).writes) _ _ _
    rw [map_update_of_eq hw]
    exact h.slots
  rx := h.rx.congr rfl rfl rfl fun hdone => hdone.update (.inr hw)
  tokens := ⟨h.tokens.1, fun tok htok =>
    ⟨(h.tokens.2 tok htok).1, (h.tokens.2 tok htok).2.update (.inr hw)⟩⟩
  returned := h.returned
  missed := h.missed

theorem Inv.answer {result : Option Bool} (h : Inv r hc tc s)
    (hw : (s.tx i).writes = none) : Inv r hc tc (s.answer i result) := by
  have hidle : Inv r hc tc (s.setTx i .idle) := h.setTx (by rw [hw]; rfl) trivial
  exact hidle.log s.claims s.peak (⟨result, s.claims i, s.peak i⟩ :: s.answers)

theorem writes_of_seeks (h : pc.seeks) : pc.writes = none := by
  cases pc <;> first | rfl | cases h

/-- A push moves no other producer. -/
theorem TxPc.Fits.push {pushed : List V} {n : Nat}
    (h : pc.Fits r pushed n value) (w : V) : pc.Fits r (pushed ++ [w]) n value := by
  have hlen : (pushed ++ [w]).length = pushed.length + 1 := by simp
  have hpush {v : V} {tail k : Nat} (hk : PushFits r pushed n v tail k) :
      PushFits r (pushed ++ [w]) n v tail k := by
    refine ⟨hk.ge, hk.tail, ?_⟩
    obtain ⟨hlt, _⟩ := List.getElem?_eq_some_iff.mp hk.value
    rw [List.getElem?_append_left hlt, hk.value]
  cases pc with
  | idle | load v one => exact trivial
  | loadHead | cas => exact ⟨by have := h.1; omega, h.2⟩
  | write v tail k => exact hpush h
  | publish v tail k => exact ⟨hpush h.1, h.2⟩

/-- The compare-exchange of a push, with a new copy of the head. -/
theorem Inv.claim {v : V} {one : Bool} {headCached k : Nat} (h : Inv r hc tc s)
    (hwrap : s.pushed.length < k + r.period) (hpc : s.tx i = .cas v one s.sender headCached k) :
    ∃ hc', Inv r hc' tc (s.claim r i v headCached) := by
  have hpci := h.tx i
  rw [hpc] at hpci
  obtain ⟨hk, ⟨n, hval⟩, m, rfl, hm, hroom⟩ := hpci
  obtain rfl := h.cas_eq hk hwrap hval rfl
  have hlen := h.length_le
  have hnew : (s.pushed ++ [v]).length = s.pushed.length + 1 := by simp
  have hi : (s.tx i).writes = none := by rw [hpc]; rfl
  have htail := h.tail.1
  -- a message that is found stays the first one
  have hdone (hlt : s.claimed < s.pushed.length) (hdone : Done s) :
      Done (s.claim r i v (r.enc m)) := by
    intro j
    show (update s.tx i (.write v (low r.word s.sender) s.pushed.length) j).writes ≠ _
    by_cases hj : j = i
    · subst hj
      rw [update_self]
      intro heq
      have : s.pushed.length = s.claimed := Option.some.inj heq
      omega
    · rw [update_of_ne hj]
      exact hdone j
  have hfresh {tok : Token} (hf : tok.Fresh r tc s.claimed s.pushed.length) :
      s.claimed < s.pushed.length ∧ tok.Fresh r tc s.claimed (s.pushed ++ [v]).length := by
    obtain ⟨_, _, _, h1, h2⟩ := hf.stamp
    refine ⟨by omega, ?_⟩
    rw [hnew]
    exact hf.push
  have hfits : (TxPc.write v (low r.word s.sender) s.pushed.length).Fits r (s.pushed ++ [v])
      s.claimed s.value := ⟨hlen.1, h.sender_low, by simp⟩
  refine ⟨m, ?_, h.recv, ⟨hm, h.head.2⟩, ⟨?_, ?_⟩, ?_, ?_, ?_, ⟨h.tokens.1, ?_⟩, ?_, h.missed⟩
  · show pack r.word (r.enc m) (r.next (low r.word s.sender)) = _
    rw [h.sender_low, Ring.next_enc, ← hnew]
    rfl
  · show tc ≤ (s.pushed ++ [v]).length
    omega
  · show (s.pushed ++ [v]).length ≤ m + r.cap
    omega
  · exact forall_phase (fun j _ => (h.tx j).push v) hfits
  · show Stamped _ _ (fun j => (update s.tx i _ j).writes) (s.pushed ++ [v]) s.value s.stamp
    rw [map_update TxPc.writes]
    refine h.slots.claim r.cap_pos hi (fun j k hk => ?_) stampOf_ne fun k => ne_stampOf
    have hge : s.claimed ≤ k := by
      have hpcj := h.tx j
      cases hj : s.tx j <;> simp only [hj, TxPc.writes, Option.some.injEq, reduceCtorEq] at hk hpcj
      · subst hk
        exact hpcj.ge
      · subst hk
        exact hpcj.1.ge
    omega
  · have hrx := h.rx
    show s.rx.Fits r tc _
    cases hrxpc : s.rx with
    | idle => exact trivial
    | load | loadTail => rw [hrxpc] at hrx; exact hrx
    | wait mode tok target =>
      rw [hrxpc] at hrx
      exact ⟨hrx.1, (hfresh hrx.2.1).2, hrx.2.2⟩
    | read tok =>
      rw [hrxpc] at hrx
      exact ⟨hrx.1, (hfresh hrx.2.1).2, hdone (hfresh hrx.2.1).1 hrx.2.2⟩
    | store tok msg =>
      rw [hrxpc] at hrx
      obtain ⟨htokens, hf, hd, hmsg⟩ := hrx
      refine ⟨htokens, (hfresh hf).2, hdone (hfresh hf).1 hd, ?_⟩
      show msg = (s.pushed ++ [v])[s.claimed]?
      rw [List.getElem?_append_left (hfresh hf).1]
      exact hmsg
  · intro tok htok
    obtain ⟨hf, hd⟩ := h.tokens.2 tok htok
    exact ⟨(hfresh hf).2, hdone (hfresh hf).1 hd⟩
  · show s.returned = handed (s.pushed ++ [v]) s.claimed
    rw [handed_push hlen.1]
    exact h.returned

/-- A push writes its slot. -/
theorem Inv.write {v : V} {tail k : Nat} (h : Inv r hc tc s) (hpc : s.tx i = .write v tail k) :
    Inv r hc tc { s with
      value := update s.value (r.index tail) (some v)
      tx := update s.tx i (.publish v tail k) } := by
  have hi : (s.tx i).writes = some k := by rw [hpc]; rfl
  have hw : (TxPc.publish v tail k).writes = (s.tx i).writes := by rw [hi]; rfl
  have hfits : PushFits r s.pushed s.claimed v tail k := by
    have hpci := h.tx i
    rwa [hpc] at hpci
  have hindex : r.index tail = k % r.cap := by rw [hfits.tail, Ring.index_enc]
  have hpublish : (TxPc.publish v tail k).Fits r s.pushed s.claimed
      (update s.value (k % r.cap) (some v)) := ⟨hfits, update_self ..⟩
  rw [hindex]
  refine ⟨h.sender, h.recv, h.head, h.tail, forall_phase (fun j hj => ?_) hpublish, ?_,
    h.rx.congr rfl rfl rfl fun hdone => hdone.update (.inr hw), ⟨h.tokens.1, fun tok htok => ?_⟩,
    h.returned, h.missed⟩
  · have hpcj := h.tx j
    cases hpc' : s.tx j with
    | publish v' tail' k' =>
      rw [hpc'] at hpcj
      refine ⟨hpcj.1, ?_⟩
      have hwj : (s.tx j).writes = some k' := by rw [hpc']; rfl
      obtain ⟨h1, h2⟩ := h.slots.recent j k' hwj
      obtain ⟨h3, h4⟩ := h.slots.recent i k hi
      have hne : k' % r.cap ≠ k % r.cap := by
        intro heq
        obtain rfl := eq_of_mod h1 h2 h3 h4 heq
        exact hj (h.slots.unique j i k' hwj hi)
      exact (update_of_ne hne ..).trans hpcj.2
    | idle | load | loadHead | cas | write =>
      rw [hpc'] at hpcj
      exact hpcj
  · show Stamped _ _ (fun j => (update s.tx i _ j).writes) _ _ _
    rw [map_update_of_eq hw]
    exact h.slots.write hi
  · exact ⟨(h.tokens.2 tok htok).1, (h.tokens.2 tok htok).2.update (.inr hw)⟩

/-- A push stores its stamp. -/
theorem Inv.publish {v : V} {tail k : Nat} (h : Inv r hc tc s) (hpc : s.tx i = .publish v tail k) :
    Inv r hc tc { s with
      stamp := update s.stamp (r.index tail) (tail + 1)
      tx := update s.tx i .idle } := by
  have hi : (s.tx i).writes = some k := by rw [hpc]; rfl
  obtain ⟨hfits, hvalue⟩ : PushFits r s.pushed s.claimed v tail k ∧
      s.value (k % r.cap) = some v := by
    have hpci := h.tx i
    rwa [hpc] at hpci
  rw [hfits.tail, Ring.index_enc]
  refine ⟨h.sender, h.recv, h.head, h.tail, forall_phase (fun j _ => h.tx j) trivial, ?_,
    h.rx.congr rfl rfl rfl fun hdone => hdone.update (.inl rfl), ⟨h.tokens.1, fun tok htok => ?_⟩,
    h.returned, h.missed⟩
  · show Stamped _ _ (fun j => (update s.tx i _ j).writes) _ _ _
    rw [map_update TxPc.writes]
    exact h.slots.publish hi (hvalue.trans hfits.value.symm)
  · exact ⟨(h.tokens.2 tok htok).1, (h.tokens.2 tok htok).2.update (.inl rfl)⟩

/-- **A step of a producer keeps the invariant.** -/
theorem Inv.goTx {choice : Bool} (h : Inv r hc tc s)
    (hwrap : ∀ k, (s.tx i).loaded = some k → s.pushed.length < k + r.period)
    (hstep : stepTx r s i choice = some t) : ∃ hc', Inv r hc' tc t := by
  have hlen := h.length_le
  cases txStep_of_stepTx hstep with
  | look v one hseeks hfull =>
    refine ⟨hc, h.setTx (by rw [writes_of_seeks hseeks]; rfl) ?_⟩
    exact ⟨Nat.le_refl _, hc, h.sender, h.full_iff.mp hfull, h.head.1⟩
  | room v one hseeks hroom =>
    refine ⟨hc, h.setTx (by rw [writes_of_seeks hseeks]; rfl) ?_⟩
    have hlt : s.pushed.length < hc + r.cap :=
      lt_of_le_of_ne h.tail.2 fun heq => hroom (h.full_iff.mpr heq)
    exact ⟨Nat.le_refl _, ⟨hc, h.sender⟩, hc, h.sender_high, h.head.1, hlt⟩
  | refuse v one senderVal k hpc hsame => exact ⟨hc, h.answer (by rw [hpc]; rfl)⟩
  | renew v one senderVal k hpc hne =>
    refine ⟨hc, h.setTx (by rw [hpc]; rfl) ?_⟩
    have hpci := h.tx i
    rw [hpc] at hpci
    obtain ⟨hk, n, rfl, rfl, hle⟩ := hpci
    refine ⟨hk, ⟨n, rfl⟩, s.claimed, h.recv_low, Nat.le_refl _, ?_⟩
    have hne' : s.claimed ≠ n := by
      rintro rfl
      rw [h.recv_low, high_pack (Ring.enc_lt _) (Ring.enc_lt _)] at hne
      exact hne rfl
    omega
  | giveUp hseeks => exact ⟨hc, h.answer (writes_of_seeks hseeks)⟩
  | claim v one headCached k hpc => exact h.claim (hwrap k (by rw [hpc]; rfl)) hpc
  | write v tail k hpc => exact ⟨hc, h.write hpc⟩
  | publish v tail k hpc =>
    have hidle := h.publish hpc
    exact ⟨hc, hidle.log s.claims s.peak (⟨some true, s.claims i, s.peak i⟩ :: s.answers)⟩

/-! ## Runs -/

/-- **Every action keeps the invariant**, up to the copies. -/
theorem Inv.step {a : Act ι V} {lap : Nat} (h : Inv r hc tc s) (hwrap : wrapOk r lap s a)
    (hok : tokenOk s a) (hstep : step r s a = some t) : ∃ hc' tc', Inv r hc' tc' t := by
  cases a with
  | push i v one =>
    simp only [Mpsc.step] at hstep
    split_ifs at hstep with hmatch
    cases hstep
    have hload : Inv r hc tc (s.setTx i (.load v one)) := by
      refine h.setTx ?_ trivial
      cases hpc : s.tx i <;> simp [hpc] at hmatch
      rfl
    exact ⟨hc, tc, hload.log _ _ s.answers⟩
  | start mode =>
    simp only [Mpsc.step] at hstep
    split_ifs at hstep
    cases hstep
    exact ⟨hc, tc, { h with rx := hok }⟩
  | redeem tok =>
    simp only [Mpsc.step] at hstep
    split_ifs at hstep with hidle
    cases hstep
    obtain ⟨hfresh, hdone⟩ := h.tokens.2 tok hidle.2
    have hnil := erase_eq_nil h.tokens.1 hidle.2
    exact ⟨hc, tc, { h with rx := ⟨hnil, hfresh, hdone⟩, tokens := only_of_eq_nil hnil }⟩
  | goTx i choice =>
    obtain ⟨hc', hinv⟩ := h.goTx (fun k hk => by have := hwrap k hk; omega) hstep
    exact ⟨hc', tc, hinv⟩
  | goRx =>
    obtain ⟨tc', hinv⟩ := h.goRx hstep
    exact ⟨hc, tc', hinv⟩

theorem inv_of_reach {lap : Nat}
    (h : Reach (system r) (fun s a => wrapOk r lap s a ∧ tokenOk s a) s) :
    ∃ hc tc, Inv r hc tc s := by
  refine h.invariant (P := fun s => ∃ hc tc, Inv r hc tc s) ?_ ?_
  · rintro _ rfl
    exact ⟨0, 0, inv_new⟩
  · rintro s a t ⟨hc, tc, hs⟩ hok hstep
    exact hs.step hok.1 hok.2 hstep

end Invariant

end Crossfire.ArrayQueue.Mpsc
