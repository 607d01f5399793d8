import Crossfire.Lib.Cycle
import Crossfire.Lib.Interleaving

/-!
# The choice of a `Select`

`select.rs`: `try_select` and `select` with the scans of `_try_select`, over a list of handlers that
`add` and `remove` change between the calls. A channel is what `ChannelSharedSelect::try_select`
reads of it, the senders and the messages, in two steps; both change at any time. When `park`
returns, with which hint, and how often the backoff snoozes are choices of the scheduler; what the
calls do to the registries is the subject of `Select.Registrations`.

A scan that starts where the last one has ended comes to every handler that has a message within
one round of successful calls. The scans of `select` before the registration do not look for closed
channels, though. While another channel has messages these scans succeed, and a handler whose
channel is empty and without senders is never selected (`closed_starved`).
`roundRobin_starves_nobody` is about the runs in which they take a message only when no channel was
empty and closed at the start of the call.

A call is recorded with the handlers that were ready for it: those whose channel was closed and
empty when it started, and those whose channel had a message all the time.
-/

set_option autoImplicit false

namespace Crossfire.Select.RoundRobin

open Lib.Cycle Lib.Interleaving Function

/-! ## Channels -/

/-- What `try_select` reads of a channel. -/
structure Chan where
  /-- The messages that `try_select` of the queue finds. -/
  len : Nat
  txCount : Nat
  /-- `start_read` of the queue takes the message out; otherwise that is left to `read`. -/
  claims : Bool
  deriving DecidableEq, Repr

/-- What happens to a channel. -/
inductive ChanAct
  | send
  /-- A message is received by another call, or `read` takes one out. -/
  | take
  | addTx
  | dropTx
  deriving DecidableEq, Repr

/-- The channel has a message. -/
def Chan.hasMessage (ch : Chan) : Bool := 0 < ch.len

/-- The channel is empty and has no sender. -/
def Chan.isClosed (ch : Chan) : Bool := ch.len = 0 && ch.txCount = 0

/-- A step of a sender or of another receiver. -/
def Chan.step (ch : Chan) : ChanAct → Option Chan
  | .send => if ch.txCount = 0 then none else some { ch with len := ch.len + 1 }
  | .take => if ch.len = 0 then none else some { ch with len := ch.len - 1 }
  | .addTx => if ch.txCount = 0 then none else some { ch with txCount := ch.txCount + 1 }
  | .dropTx => if ch.txCount = 0 then none else some { ch with txCount := ch.txCount - 1 }

/-- A channel that is empty and has no sender stays so. -/
theorem isClosed_of_step {ch ch' : Chan} {a : ChanAct} (h : ch.isClosed = true)
    (hstep : ch.step a = some ch') : ch'.isClosed = true := by
  simp only [Chan.isClosed, Bool.and_eq_true, decide_eq_true_eq] at h
  obtain ⟨hlen, htx⟩ := h
  cases a <;> simp [Chan.step, hlen, htx] at hstep

/-! ## The program -/

/-- The order in which handlers are tried. -/
inductive SelectMode
  | rr
  | rand
  | bias
  deriving DecidableEq, Repr

/-- `RecvHandle`: the channel and the address of the receiver. -/
structure RecvHandle (κ : Type) where
  shared : κ
  channel : Nat
  deriving DecidableEq, Repr

/-- The calls on a `Select`. -/
inductive Call
  | trySelect
  /-- `select`, or `select_timeout` with a deadline. -/
  | select (deadline : Bool)
  deriving DecidableEq, Repr

/-- The errors of a call. -/
inductive Err
  | empty
  | disconnected
  | timeout
  deriving DecidableEq, Repr

/-- Which call of `_try_select` it is. -/
inductive Stage
  /-- Of `try_select`. -/
  | tryFinal
  /-- The first one of `_select_blocking`. -/
  | first
  /-- In its loop before the registration. -/
  | spin
  /-- After the registration. -/
  | final
  deriving DecidableEq, Repr

/-- `final_check`. -/
def Stage.finalCheck : Stage → Bool
  | .tryFinal | .final => true
  | .first | .spin => false

/-- Program counter of a call. -/
inductive Pc
  | idle
  /-- `_try_select(start, ..)`, at `idx` with `left` rounds to go. -/
  | scan (stage : Stage) (start idx left : Nat)
  /-- `try_select` of handler `idx` has read whether the senders are gone. -/
  | ask (stage : Stage) (start idx left : Nat) (closed : Bool)
  /-- `init_blocking` and the registration of all handlers. -/
  | register (start : Nat)
  /-- The loop of `check_timeout` and `park`. -/
  | park
  /-- `Ok` with the result of handler `i`. -/
  | ok (i : Nat)
  | err (e : Err)
  deriving DecidableEq, Repr

/-- The `Select`, its channels and its call. -/
structure St (κ : Type) where
  mode : SelectMode
  handlers : List (RecvHandle κ)
  nextIndex : Nat
  rng : UInt64
  call : Call
  pc : Pc
  chan : κ → Chan

/-- A handler is added or removed, a call starts, or something happens. -/
inductive Act (κ : Type)
  | add (shared : κ) (channel : Nat)
  | remove (channel : Nat)
  | call (c : Call)
  | go (choice : Bool) (hint : Nat)
  | chan (c : κ) (a : ChanAct)

section Step

variable {κ : Type}

/-- The next value of `rng`. -/
def xorshift (x : UInt64) : UInt64 :=
  let x := x ^^^ (x <<< 13)
  let x := x ^^^ (x >>> 7)
  x ^^^ (x <<< 17)

/-- `_try_select_begin`: the index, and the new `rng`. -/
def St.tryBegin (s : St κ) : Nat × UInt64 :=
  match s.mode with
  | .bias => (0, s.rng)
  | .rr => (wrap s.handlers.length s.nextIndex, s.rng)
  | .rand => ((xorshift s.rng).toNat % s.handlers.length, xorshift s.rng)

/-- The scan a call starts with. -/
def Call.stage : Call → Stage
  | .trySelect => .tryFinal
  | .select _ => .first

/-- The start of `try_select` or `_select_blocking`. -/
def St.start (s : St κ) (c : Call) : St κ :=
  if s.handlers.isEmpty then { s with call := c, pc := .err .disconnected }
  else
    { s with
      call := c
      rng := s.tryBegin.2
      pc := .scan c.stage s.tryBegin.1 s.tryBegin.1 s.handlers.length }

/-- What follows a scan that found nothing. -/
def St.scanned (s : St κ) (start : Nat) (choice : Bool) : Stage → Pc
  | .tryFinal => .err .empty
  | .first => .scan .spin start start s.handlers.length
  | .spin => if choice then .register start else .scan .spin start start s.handlers.length
  | .final => .park

/-- Handler `idx` is selected. -/
def St.selected (s : St κ) (idx : Nat) : St κ :=
  { s with
    nextIndex := if s.mode = .rr then idx + 1 else s.nextIndex
    pc := .ok idx }

variable [DecidableEq κ]

/-- `try_select` of the queue finds a message. -/
def St.claim (s : St κ) (c : κ) : St κ :=
  if (s.chan c).claims then
    { s with chan := update s.chan c { s.chan c with len := (s.chan c).len - 1 } }
  else s

/-- One step of a call; an index that is out of bounds stops it. -/
def St.go (s : St κ) (choice : Bool) (hint : Nat) : Option (St κ) :=
  match s.pc with
  | .idle => none
  | .scan stage start _ 0 => some { s with pc := s.scanned start choice stage }
  | .scan stage start idx (left + 1) =>
    (s.handlers[wrap s.handlers.length idx]?).map fun h =>
      { s with
        pc := .ask stage start (wrap s.handlers.length idx) left
          (stage.finalCheck && decide ((s.chan h.shared).txCount = 0)) }
  | .ask stage start idx left closed =>
    (s.handlers[idx]?).map fun h =>
      if (s.chan h.shared).hasMessage then (s.claim h.shared).selected idx
      else if closed then s.selected idx
      else { s with pc := .scan stage start (idx + 1) left }
  | .register start => some { s with pc := .scan .final start start s.handlers.length }
  | .park =>
    if choice then if s.call = .select true then some { s with pc := .err .timeout } else none
    else some { s with pc := .scan .spin hint hint s.handlers.length }
  | .ok _ | .err _ => some { s with pc := .idle }

/-- `remove`; the first handler of that receiver is taken out. -/
def St.remove (s : St κ) (channel : Nat) : St κ :=
  match s.handlers.findIdx? fun h => h.channel = channel with
  | some index =>
    let handlers := s.handlers.eraseIdx index
    { s with
      handlers := handlers
      nextIndex := if !handlers.isEmpty && handlers.length ≤ s.nextIndex then 0
        else s.nextIndex }
  | none => s

/-- One action; `none` if it is not possible now. -/
def step (s : St κ) : Act κ → Option (St κ)
  | .add shared channel =>
    if s.pc = .idle then some { s with handlers := s.handlers ++ [⟨shared, channel⟩] } else none
  | .remove channel => if s.pc = .idle then some (s.remove channel) else none
  | .call c => if s.pc = .idle then some (s.start c) else none
  | .go choice hint => s.go choice hint
  | .chan c a => ((s.chan c).step a).map fun ch => { s with chan := update s.chan c ch }

end Step

/-! ## The record of a run -/

/-- A successful call. -/
structure Pick where
  index : Nat
  /-- The handlers that were ready for the call. -/
  ready : List Nat
  deriving DecidableEq, Repr

/-- A `Select` with the log of its answers. -/
structure Logged (κ : Type) where
  st : St κ
  /-- The handlers whose channel was empty and closed when the call started. -/
  closed : List Nat
  /-- The handlers whose channel has had a message since the call started. -/
  served : List Nat
  /-- The successful calls since the list of handlers has changed; the latest is the first. -/
  log : List Pick

section Log

variable {κ : Type}

/-- Of the channel of handler `j`. -/
def St.test (s : St κ) (p : Chan → Bool) (j : Nat) : Bool :=
  (s.handlers[j]?).any fun h => p (s.chan h.shared)

/-- The handlers whose channel passes the test. -/
def St.all (s : St κ) (p : Chan → Bool) : List Nat :=
  (List.range s.handlers.length).filter (s.test p)

/-- What an action that leads to `t` leaves in the record. -/
def Logged.note (w : Logged κ) (t : St κ) : Act κ → Logged κ
  | .add _ _ | .remove _ => ⟨t, [], [], []⟩
  | .call _ => ⟨t, w.st.all Chan.isClosed, w.st.all Chan.hasMessage, w.log⟩
  | .go _ _ =>
    { w with
      st := t
      served := w.served.filter (t.test Chan.hasMessage)
      log := match t.pc with
        | .ok i => ⟨i, w.closed ++ w.served⟩ :: w.log
        | _ => w.log }
  | .chan _ _ => { w with st := t, served := w.served.filter (t.test Chan.hasMessage) }

variable [DecidableEq κ]

/-- A step with its log. -/
def loggedStep (w : Logged κ) (a : Act κ) : Option (Logged κ) :=
  (step w.st a).map fun t => w.note t a

/-- A new `Select` of any mode, over any channels. -/
def loggedSystem : System (Logged κ) (Act κ) where
  init w := w.st.handlers = [] ∧ w.st.nextIndex = 0 ∧ w.st.pc = .idle ∧ w.closed = [] ∧
    w.served = [] ∧ w.log = []
  step := loggedStep

/-- A scan without the check for closed channels takes a message only if no channel was empty and
closed when the call started. -/
def closedOk (w : Logged κ) : Act κ → Prop
  | .go _ _ =>
    match w.st.pc with
    | .ask stage _ idx _ _ =>
      stage.finalCheck = false → w.st.test Chan.hasMessage idx = true → w.closed = []
    | _ => True
  | _ => True

end Log

/-! ## What a scan still has to find -/

section Scans

variable {κ : Type}

/-- Where a round-robin call starts. -/
def St.begin (s : St κ) : Nat := wrap s.handlers.length s.nextIndex

/-- The ready handlers that a scan of this kind does not pass over. -/
def Logged.owes (w : Logged κ) : Stage → List Nat
  | .tryFinal => w.closed ++ w.served
  | .first => w.served
  | .spin => []
  | .final => w.closed

/-- What the scans before have left. -/
def Logged.Earlier (w : Logged κ) (stage : Stage) : Prop :=
  stage = .spin ∨ stage = .final → w.served = []

/-- The scan has `left` rounds to go, the next one at `idx`, and has passed over no handler that it
owes a result. -/
structure Logged.Scans (w : Logged κ) (stage : Stage) (start idx left : Nat) : Prop where
  begin : start = w.st.begin
  pos : 0 < w.st.handlers.length
  left_le : left ≤ w.st.handlers.length
  place : 0 < left →
    rank w.st.handlers.length start (wrap w.st.handlers.length idx) = w.st.handlers.length - left
  owes : ∀ j ∈ w.owes stage,
    w.st.handlers.length - left ≤ rank w.st.handlers.length start j

/-- The call was not ready for any handler. -/
def Logged.Quiet (w : Logged κ) : Prop := w.closed = [] ∧ w.served = []

/-- What the program counter says about the handlers that are ready for the call. -/
def Logged.Fits (w : Logged κ) : Pc → Prop
  | .scan stage start idx left =>
    w.Earlier stage ∧ (w.Scans stage start idx left ∨ w.Quiet)
  | .ask stage start idx left closed =>
    (closed = true → stage.finalCheck = true) ∧
    (stage.finalCheck = true → idx ∈ w.closed → closed = true) ∧
    idx < w.st.handlers.length ∧ w.Earlier stage ∧
    (w.Scans stage start idx (left + 1) ∨ w.Quiet)
  | .register start =>
    w.served = [] ∧ (start = w.st.begin ∧ 0 < w.st.handlers.length ∨ w.closed = [])
  | .park => w.Quiet
  | .idle | .ok _ | .err _ => True

/-- From the handler after the one before, the selected one is no further than any ready one. -/
def Fairly (len : Nat) (newer older : Pick) : Prop :=
  ∀ j ∈ newer.ready,
    rank len (wrap len (older.index + 1)) newer.index ≤ rank len (wrap len (older.index + 1)) j

/-- What the log says about the channels. -/
structure Fair (w : Logged κ) : Prop where
  closed : ∀ j ∈ w.closed, w.st.test Chan.isClosed j = true
  served : ∀ j ∈ w.served, w.st.test Chan.hasMessage j = true
  next : ∀ e ∈ w.log.head?, w.st.nextIndex = e.index + 1
  index : ∀ e ∈ w.log, e.index < w.st.handlers.length
  chain : w.log.IsChain (Fairly w.st.handlers.length)
  fits : w.Fits w.st.pc

variable {s : St κ} {w w' : Logged κ} {p : Chan → Bool} {j : Nat}

theorem test_iff :
    s.test p j = true ↔ ∃ h, s.handlers[j]? = some h ∧ p (s.chan h.shared) = true := by
  simp [St.test, Option.any_eq_true]

theorem lt_of_test (h : s.test p j = true) : j < s.handlers.length := by
  obtain ⟨_, hget, _⟩ := test_iff.mp h
  exact (List.getElem?_eq_some_iff.mp hget).1

theorem begin_lt (h : 0 < s.handlers.length) : s.begin < s.handlers.length := wrap_lt _ h

variable {stage : Stage}

/-- A scan that starts. -/
theorem scans_start {start : Nat} (hbegin : start = w.st.begin)
    (hpos : 0 < w.st.handlers.length) : w.Scans stage start start w.st.handlers.length where
  begin := hbegin
  pos := hpos
  left_le := Nat.le_refl _
  place _ := by
    have hlt := begin_lt hpos
    rw [← hbegin] at hlt
    rw [wrap, if_neg (Nat.not_le.mpr hlt), rank_self, Nat.sub_self]
  owes j _ := by
    rw [Nat.sub_self]
    exact Nat.zero_le _

/-- A scan that is over owes nothing. -/
theorem Logged.Scans.done {start idx : Nat} (h : w.Scans stage start idx 0)
    (hready : ∀ j ∈ w.owes stage, j < w.st.handlers.length) : w.owes stage = [] := by
  refine List.eq_nil_iff_forall_not_mem.mpr fun j hj => ?_
  have hle := h.owes j hj
  have hstart := begin_lt h.pos
  rw [← h.begin] at hstart
  have hlt := rank_lt hstart (hready j hj)
  omega

/-- The handler at `idx` is asked and has nothing. -/
theorem Logged.Scans.miss {start idx left : Nat}
    (h : w.Scans stage start idx (left + 1)) (hidx : idx < w.st.handlers.length)
    (hready : ∀ j ∈ w.owes stage, j < w.st.handlers.length) (hmiss : idx ∉ w.owes stage) :
    w.Scans stage start (idx + 1) left := by
  have hstart := begin_lt h.pos
  rw [← h.begin] at hstart
  have hle := h.left_le
  have hplace := h.place (Nat.succ_pos left)
  rw [wrap, if_neg (Nat.not_le.mpr hidx)] at hplace
  refine ⟨h.begin, h.pos, by omega, fun hleft => ?_, fun j hj => ?_⟩
  · rw [rank_succ hstart hidx (by omega)]
    omega
  · have hj' := h.owes j hj
    have hne : rank w.st.handlers.length start idx ≠ rank w.st.handlers.length start j := fun heq =>
      hmiss (rank_inj hstart hidx (hready j hj) heq ▸ hj)
    omega

theorem Fair.owes_lt (h : Fair w) (hj : j ∈ w.owes stage) : j < w.st.handlers.length := by
  have hclosed (hj : j ∈ w.closed) := lt_of_test (h.closed j hj)
  have hserved (hj : j ∈ w.served) := lt_of_test (h.served j hj)
  cases stage with
  | tryFinal => exact (List.mem_append.mp hj).elim hclosed hserved
  | first => exact hserved hj
  | spin => cases hj
  | final => exact hclosed hj

/-- The same place with fewer handlers that are ready. -/
theorem Logged.Fits.mono {pc : Pc} (h : w.Fits pc) (hhandlers : w'.st.handlers = w.st.handlers)
    (hnext : w'.st.nextIndex = w.st.nextIndex) (hclosed : w'.closed = w.closed)
    (hserved : w'.served ⊆ w.served) : w'.Fits pc := by
  have hbegin : w'.st.begin = w.st.begin := by rw [St.begin, St.begin, hhandlers, hnext]
  have hnil (h : w.served = []) : w'.served = [] := List.subset_nil.mp (h ▸ hserved)
  have hquiet (h : w.Quiet) : w'.Quiet := ⟨hclosed.trans h.1, hnil h.2⟩
  have hearlier {stage : Stage} (h : w.Earlier stage) : w'.Earlier stage := fun hs => hnil (h hs)
  have howes {stage : Stage} : w'.owes stage ⊆ w.owes stage := by
    cases stage with
    | tryFinal =>
      show w'.closed ++ w'.served ⊆ w.closed ++ w.served
      rw [hclosed]
      exact List.append_subset.mpr ⟨List.subset_append_left _ _,
        List.Subset.trans hserved (List.subset_append_right _ _)⟩
    | first => exact hserved
    | spin => exact List.Subset.refl _
    | final =>
      show w'.closed ⊆ w.closed
      rw [hclosed]
      exact List.Subset.refl _
  have hscans {stage : Stage} {start idx left : Nat} (h : w.Scans stage start idx left) :
      w'.Scans stage start idx left := by
    refine ⟨h.begin.trans hbegin.symm, ?_, ?_, ?_, fun j hj => ?_⟩ <;> rw [hhandlers]
    · exact h.pos
    · exact h.left_le
    · exact h.place
    · exact h.owes j (howes hj)
  cases pc with
  | scan stage start idx left => exact ⟨hearlier h.1, h.2.imp hscans hquiet⟩
  | ask stage start idx left closed =>
    obtain ⟨hfinal, hflag, hidx, hbefore, hor⟩ := h
    exact ⟨hfinal, fun hf hmem => hflag hf (hclosed ▸ hmem), hhandlers ▸ hidx, hearlier hbefore,
      hor.imp hscans hquiet⟩
  | register start =>
    obtain ⟨hempty, hor⟩ := h
    refine ⟨hnil hempty, hor.imp (fun hstart => ?_) fun hc => hclosed.trans hc⟩
    rw [hbegin, hhandlers]
    exact hstart
  | park => exact hquiet h
  | idle | ok | err => trivial

end Scans

/-! ## Every step keeps it -/

section Steps

variable {κ : Type} {s t : St κ} {w : Logged κ} {j : Nat}

/-- No handler is selected and none is added or removed. -/
theorem Fair.keep (h : Fair w) (hhandlers : t.handlers = w.st.handlers)
    (hnext : t.nextIndex = w.st.nextIndex)
    (hclosed : ∀ j ∈ w.closed, t.test Chan.isClosed j = true) (hfits : w.Fits t.pc) :
    Fair { w with st := t, served := w.served.filter (t.test Chan.hasMessage) } where
  closed := hclosed
  served j hj := (List.mem_filter.mp hj).2
  next e he := hnext.trans (h.next e he)
  index e he := by
    show e.index < t.handlers.length
    rw [hhandlers]
    exact h.index e he
  chain := by
    show w.log.IsChain (Fairly t.handlers.length)
    rw [hhandlers]
    exact h.chain
  fits := hfits.mono hhandlers hnext rfl fun _ hj => (List.mem_filter.mp hj).1

variable {choice : Bool}

theorem note_go {hint : Nat} (hpc : ∀ i, t.pc ≠ .ok i) : w.note t (.go choice hint) =
      { w with st := t, served := w.served.filter (t.test Chan.hasMessage) } := by
  unfold Logged.note
  cases htpc : t.pc with
  | ok i => exact absurd htpc (hpc i)
  | idle | scan | ask | register | park | err => rfl

/-- The call goes on at `pc`. -/
theorem Fair.goOn (h : Fair w) (pc : Pc) (hpc : ∀ i, pc ≠ .ok i) (hfits : w.Fits pc) (choice : Bool)
    (hint : Nat) : Fair (w.note { w.st with pc := pc } (.go choice hint)) := by
  rw [note_go hpc]
  exact h.keep rfl rfl h.closed hfits

/-- A handler is selected. All those that are ready for the call are as far from where it started,
or further. -/
theorem Fair.select (h : Fair w) {i : Nat} (hhandlers : t.handlers = w.st.handlers)
    (hi : i < w.st.handlers.length) (hnext : t.nextIndex = i + 1) (hpc : t.pc = .ok i)
    (hclosed : ∀ j ∈ w.closed, t.test Chan.isClosed j = true)
    (hfirst : ∀ j ∈ w.closed ++ w.served,
      rank w.st.handlers.length w.st.begin i ≤ rank w.st.handlers.length w.st.begin j)
    (choice : Bool) (hint : Nat) : Fair (w.note t (.go choice hint)) := by
  have hnote : w.note t (.go choice hint) =
      ⟨t, w.closed, w.served.filter (t.test Chan.hasMessage),
        ⟨i, w.closed ++ w.served⟩ :: w.log⟩ := by
    unfold Logged.note
    rw [hpc]
  rw [hnote]
  refine ⟨hclosed, fun j hj => (List.mem_filter.mp hj).2, ?_, ?_, ?_, ?_⟩
  · rintro e he
    cases he
    exact hnext
  · intro e he
    show e.index < t.handlers.length
    rw [hhandlers]
    rcases List.mem_cons.mp he with rfl | he
    · exact hi
    · exact h.index e he
  · show List.IsChain (Fairly t.handlers.length) _
    rw [hhandlers]
    refine List.isChain_cons.mpr ⟨fun older holder j hj => ?_, h.chain⟩
    rw [← h.next older holder]
    exact hfirst j hj
  · show Logged.Fits _ t.pc
    rw [hpc]
    trivial

variable {stage : Stage}

/-- The scan was not to pass over any handler that is ready for the call, unless it does not look
for closed channels and has found a message. -/
theorem Logged.Scans.first {start idx left : Nat}
    (h : w.Scans stage start idx (left + 1)) (hidx : idx < w.st.handlers.length)
    (hearlier : w.Earlier stage) (hclosed : stage.finalCheck = false → w.closed = []) (j : Nat)
    (hj : j ∈ w.closed ++ w.served) :
    rank w.st.handlers.length w.st.begin idx ≤ rank w.st.handlers.length w.st.begin j := by
  have hplace := h.place (Nat.succ_pos left)
  rw [wrap, if_neg (Nat.not_le.mpr hidx)] at hplace
  rw [← h.begin, hplace]
  refine h.owes j ?_
  cases stage with
  | tryFinal => exact hj
  | first =>
    rw [hclosed rfl] at hj
    exact hj
  | spin =>
    rw [hclosed rfl, hearlier (.inl rfl)] at hj
    exact hj
  | final =>
    rw [hearlier (.inr rfl), List.append_nil] at hj
    exact hj

/-- A handler that has nothing for a scan is not one that it owes. -/
theorem Logged.not_owes {idx : Nat} (hservice : idx ∉ w.served)
    (hclosed : stage.finalCheck = true → idx ∉ w.closed) : idx ∉ w.owes stage := by
  cases stage with
  | tryFinal => exact fun hmem => (List.mem_append.mp hmem).elim (hclosed rfl) hservice
  | first => exact hservice
  | spin => exact List.not_mem_nil
  | final => exact hclosed rfl

variable [DecidableEq κ]

/-- Taking a message opens no channel. -/
theorem test_claim {c : κ} (hmessage : (s.chan c).hasMessage = true)
    (h : s.test Chan.isClosed j = true) : (s.claim c).test Chan.isClosed j = true := by
  unfold St.claim
  split_ifs
  · obtain ⟨hd, hget, hclosed⟩ := test_iff.mp h
    refine test_iff.mpr ⟨hd, hget, ?_⟩
    have hne : hd.shared ≠ c := by
      rintro rfl
      simp only [Chan.isClosed, Chan.hasMessage, Bool.and_eq_true, decide_eq_true_eq] at *
      omega
    show (update s.chan c _ hd.shared).isClosed = true
    rw [update_of_ne hne]
    exact hclosed
  · exact h

theorem claim_handlers (s : St κ) (c : κ) : (s.claim c).handlers = s.handlers := by
  unfold St.claim
  split_ifs <;> rfl

theorem claim_mode (s : St κ) (c : κ) : (s.claim c).mode = s.mode := by
  unfold St.claim
  split_ifs <;> rfl

/-- A handler is asked. -/
theorem fair_of_ask (h : Fair w) (hmode : w.st.mode = .rr) {start idx left : Nat}
    {closed : Bool} (hpc : w.st.pc = .ask stage start idx left closed) {hint : Nat}
    (hok : closedOk w (.go choice hint)) (hgo : w.st.go choice hint = some t) :
    Fair (w.note t (.go choice hint)) := by
  have hfits := h.fits
  rw [hpc] at hfits
  obtain ⟨hfinal, hflag, hidx, hearlier, hor⟩ := hfits
  simp only [closedOk, hpc] at hok
  simp only [St.go, hpc, Option.map_eq_some_iff] at hgo
  obtain ⟨hd, hget, rfl⟩ := hgo
  have hfirst (hclosed : stage.finalCheck = false → w.closed = []) (j : Nat)
      (hj : j ∈ w.closed ++ w.served) :
      rank w.st.handlers.length w.st.begin idx ≤ rank w.st.handlers.length w.st.begin j := by
    rcases hor with hscans | ⟨hnone, hnone'⟩
    · exact hscans.first hidx hearlier hclosed j hj
    · rw [hnone, hnone'] at hj
      cases hj
  split_ifs with hmessage hclosed
  · have hcond := fun hnot => hok hnot (test_iff.mpr ⟨hd, hget, hmessage⟩)
    exact h.select (t := (w.st.claim hd.shared).selected idx) (claim_handlers w.st hd.shared) hidx
      (if_pos ((claim_mode w.st hd.shared).trans hmode)) rfl
      (fun j hj => test_claim hmessage (h.closed j hj)) (hfirst hcond) choice hint
  · refine h.select (t := w.st.selected idx) rfl hidx (if_pos hmode) rfl h.closed
      (hfirst fun hnot => ?_) choice hint
    rw [hfinal hclosed] at hnot
    cases hnot
  · refine h.goOn (.scan stage start (idx + 1) left) (by simp) ⟨hearlier, ?_⟩ choice hint
    refine hor.imp_left fun hscans =>
      hscans.miss hidx (fun j hj => h.owes_lt hj) (Logged.not_owes ?_ ?_)
    · intro hmem
      obtain ⟨hd', hget', hmessage'⟩ := test_iff.mp (h.served idx hmem)
      cases hget.symm.trans hget'
      exact hmessage hmessage'
    · exact fun hcheck hmem => hclosed (hflag hcheck hmem)

omit [DecidableEq κ] in
/-- A scan that is over has found every handler it owes a result. -/
theorem fits_scanned (h : Fair w) {start idx : Nat}
    (hpc : w.st.pc = .scan stage start idx 0) (choice : Bool) :
    w.Fits (w.st.scanned start choice stage) := by
  have hfits := h.fits
  rw [hpc] at hfits
  obtain ⟨hearlier, hor⟩ := hfits
  have hdone : w.owes stage = [] ∧ start = w.st.begin ∧ 0 < w.st.handlers.length ∨ w.Quiet :=
    hor.imp_left fun hscans => ⟨hscans.done fun j hj => h.owes_lt hj, hscans.begin, hscans.pos⟩
  cases stage with
  | tryFinal => trivial
  | first =>
    refine ⟨fun _ => ?_, hdone.imp_left fun ⟨_, hbegin, hpos⟩ => scans_start hbegin hpos⟩
    rcases hdone with ⟨hserved, _⟩ | ⟨_, hserved⟩ <;> exact hserved
  | spin =>
    cases choice with
    | true =>
      exact ⟨hearlier (.inl rfl), hdone.imp (fun hd => hd.2) fun hquiet => hquiet.1⟩
    | false =>
      exact ⟨hearlier, hdone.imp_left fun ⟨_, hbegin, hpos⟩ => scans_start hbegin hpos⟩
  | final =>
    refine ⟨?_, hearlier (.inr rfl)⟩
    rcases hdone with ⟨hclosed, _⟩ | ⟨hclosed, _⟩ <;> exact hclosed

omit [DecidableEq κ] in
theorem scanned_ne_ok (s : St κ) (start i : Nat) (choice : Bool) (stage : Stage) :
    s.scanned start choice stage ≠ .ok i := by
  cases stage <;> simp only [St.scanned] <;> try split_ifs
  all_goals exact Pc.noConfusion

/-- A step of a call. -/
theorem fair_of_go (h : Fair w) (hmode : w.st.mode = .rr) {hint : Nat}
    (hok : closedOk w (.go choice hint)) (hgo : w.st.go choice hint = some t) :
    Fair (w.note t (.go choice hint)) := by
  have hfits := h.fits
  cases hpc : w.st.pc with
  | idle => simp [St.go, hpc] at hgo
  | scan stage start idx left =>
    cases left with
    | zero =>
      simp only [St.go, hpc, Option.some.injEq] at hgo
      subst hgo
      exact h.goOn _ (fun i => scanned_ne_ok _ _ i _ _) (fits_scanned h hpc choice) choice hint
    | succ left =>
      simp only [St.go, hpc, Option.map_eq_some_iff] at hgo
      obtain ⟨hd, hget, rfl⟩ := hgo
      rw [hpc] at hfits
      obtain ⟨hearlier, hor⟩ := hfits
      have hidx := (List.getElem?_eq_some_iff.mp hget).1
      refine h.goOn (.ask stage start (wrap w.st.handlers.length idx) left _) (by simp)
        ⟨fun hclosed => ?_, fun hcheck hmem => ?_, hidx, hearlier, ?_⟩ choice hint
      · exact (Bool.and_eq_true_iff.mp hclosed).1
      -- a channel in `closed` is found closed when it is asked
      · obtain ⟨hd', hget', hclosed⟩ := test_iff.mp (h.closed _ hmem)
        cases hget.symm.trans hget'
        simp only [Chan.isClosed, Bool.and_eq_true] at hclosed
        rw [hcheck, hclosed.2]
        rfl
      · refine hor.imp_left fun hscans =>
          ⟨hscans.begin, hscans.pos, hscans.left_le, fun hpos => ?_, hscans.owes⟩
        rw [← hscans.place hpos, wrap, if_neg (Nat.not_le.mpr hidx)]
  | ask stage start idx left closed => exact fair_of_ask h hmode hpc hok hgo
  | register start =>
    simp only [St.go, hpc, Option.some.injEq] at hgo
    subst hgo
    rw [hpc] at hfits
    obtain ⟨hserved, hor⟩ := hfits
    refine h.goOn (.scan .final start start _) (by simp) ⟨fun _ => hserved, ?_⟩ choice hint
    exact hor.imp (fun ⟨hbegin, hpos⟩ => scans_start hbegin hpos) fun hclosed =>
      ⟨hclosed, hserved⟩
  | park =>
    rw [hpc] at hfits
    simp only [St.go, hpc] at hgo
    split_ifs at hgo <;> cases hgo
    · exact h.goOn (.err .timeout) (by simp) trivial choice hint
    · exact h.goOn (.scan .spin hint hint _) (by simp) ⟨fun _ => hfits.2, .inr hfits⟩ choice hint
  | ok | err =>
    simp only [St.go, hpc, Option.some.injEq] at hgo
    subst hgo
    exact h.goOn .idle (by simp) trivial choice hint

omit [DecidableEq κ] in
theorem test_all {p : Chan → Bool} (hj : j ∈ s.all p) : s.test p j = true :=
  (List.mem_filter.mp hj).2

omit [DecidableEq κ] in
/-- A call starts behind the handler that was selected last. -/
theorem Fair.start (h : Fair w) (hmode : w.st.mode = .rr) (c : Call) :
    Fair (w.note (w.st.start c) (.call c)) := by
  unfold St.start
  split_ifs with hempty
  · exact ⟨fun j => test_all, fun j => test_all, h.next, h.index, h.chain, trivial⟩
  · refine ⟨fun j => test_all, fun j => test_all, h.next, h.index, h.chain, ?_⟩
    have hpos : 0 < w.st.handlers.length := by
      rw [List.length_pos_iff]
      simpa using hempty
    have hbegin : w.st.tryBegin.1 = w.st.begin := by
      unfold St.tryBegin
      rw [hmode]
      rfl
    refine ⟨fun hstage => ?_, .inl (scans_start hbegin hpos)⟩
    cases c <;> rcases hstage with hstage | hstage <;> cases hstage

omit [DecidableEq κ] in
/-- The record starts anew. -/
theorem fair_nil (hpc : t.pc = .idle) : Fair ⟨t, [], [], []⟩ where
  closed j hj := nomatch hj
  served j hj := nomatch hj
  next e he := nomatch he
  index e he := nomatch he
  chain := .nil
  fits := by
    rw [hpc]
    trivial

/-- **Every action is fair.** -/
theorem fair_of_step {a : Act κ} (h : Fair w) (hmode : w.st.mode = .rr) (hok : closedOk w a)
    (hstep : step w.st a = some t) : Fair (w.note t a) := by
  cases a with
  | add shared channel =>
    simp only [step] at hstep
    split_ifs at hstep with hpc
    cases hstep
    exact fair_nil hpc
  | remove channel =>
    simp only [step] at hstep
    split_ifs at hstep with hpc
    cases hstep
    refine fair_nil (t := w.st.remove channel) ?_
    unfold St.remove
    split <;> exact hpc
  | call c =>
    simp only [step] at hstep
    split_ifs at hstep
    cases hstep
    exact h.start hmode c
  | go choice hint => exact fair_of_go h hmode hok hstep
  | chan c a =>
    obtain ⟨ch, hch, rfl⟩ := Option.map_eq_some_iff.mp hstep
    refine h.keep rfl rfl (fun j hj => ?_) h.fits
    obtain ⟨hd, hget, hclosed⟩ := test_iff.mp (h.closed j hj)
    refine test_iff.mpr ⟨hd, hget, ?_⟩
    show (update w.st.chan c ch hd.shared).isClosed = true
    rcases eq_or_ne hd.shared c with rfl | hne
    · rw [update_self]
      exact isClosed_of_step hclosed hch
    · rw [update_of_ne hne]
      exact hclosed

theorem mode_of_go {hint : Nat} (h : s.go choice hint = some t) : t.mode = s.mode := by
  unfold St.go at h
  split at h
  case h_1 => cases h
  case h_3 =>
    obtain ⟨_, _, rfl⟩ := Option.map_eq_some_iff.mp h
    rfl
  case h_4 =>
    obtain ⟨_, _, rfl⟩ := Option.map_eq_some_iff.mp h
    split_ifs
    · exact claim_mode s _
    · rfl
    · rfl
  case h_6 => split_ifs at h <;> cases h <;> rfl
  all_goals
    cases h
    rfl

/-- The mode is fixed. -/
theorem mode_of_step {a : Act κ} (h : step s a = some t) : t.mode = s.mode := by
  cases a with
  | add | call =>
    simp only [step, St.start] at h
    split_ifs at h <;> cases h <;> rfl
  | remove channel =>
    simp only [step] at h
    split_ifs at h
    cases h
    unfold St.remove
    split <;> rfl
  | go choice hint => exact mode_of_go h
  | chan c a =>
    obtain ⟨_, _, rfl⟩ := Option.map_eq_some_iff.mp h
    rfl

/-- **In the round-robin mode every run is fair.** -/
theorem fair_of_reach (h : Reach loggedSystem closedOk w) : w.st.mode = .rr → Fair w := by
  refine Reach.invariant (P := fun w => w.st.mode = .rr → Fair w) ?_ ?_ h
  · rintro ⟨s, closed, served, log⟩ ⟨_, _, hpc, rfl, rfl, rfl⟩ _
    exact fair_nil hpc
  · intro w a w' hw hok hstep hmode
    obtain ⟨t, hmove, rfl⟩ := Option.map_eq_some_iff.mp hstep
    have hst : (w.note t a).st = t := by cases a <;> rfl
    rw [hst, mode_of_step hmove] at hmode
    exact fair_of_step (hw hmode) hmode hok hmove

instance (w : Logged κ) : (a : Act κ) → Decidable (closedOk w a)
  | .go _ _ =>
    match hpc : w.st.pc with
    | .ask stage _ idx _ _ =>
      decidable_of_iff
        (stage.finalCheck = false → w.st.test Chan.hasMessage idx = true → w.closed = [])
        (by simp [closedOk, hpc])
    | .idle | .scan _ _ _ _ | .register _ | .park | .ok _ | .err _ =>
      .isTrue (by simp [closedOk, hpc])
  | .add _ _ | .remove _ | .call _ | .chan _ _ => instDecidableTrue

/-- A new `Select` over three channels. -/
def Logged.new (chan : Fin 3 → Chan) : Logged (Fin 3) :=
  ⟨⟨.rr, [], 0, 0, .trySelect, .idle, chan⟩, [], [], []⟩

end Steps

end Crossfire.Select.RoundRobin
