import Crossfire.Multiplex.Bounds

/-!
# The weights of `Multiplex`

The budget of the channel at `last_idx` is one counter for the whole `Multiplex`. A channel that was
found by a scan gets its weight less one; while that lasts it is asked first, and when it is used up
the scan asks every other channel before it. So a channel with weight `n` yields at most `n`
messages in a row while another channel has one (`weights_respected`).

`_add_item` moves `last_idx` to the new channel and leaves the counter as it is: the new channel
goes on with the budget of the old one (`weight_overrun`), and the next scan starts with the first
channel of the list, also when that one has just used up its budget. The result holds of the runs in
which a channel is added when neither matters.

A run is recorded by the messages in the order in which they are taken. A message counts as
contested when another channel had one when the call started; since nobody else receives, that one
has it until the consumer asks for it.
-/

set_option autoImplicit false

namespace Crossfire.Multiplex

open Lib.Cycle Lib.Interleaving Crossfire.Registry Function

section Leading

variable {α : Type} [DecidableEq α] {a b : α} {l : List α}

/-- How often `a` stands at the front of the list. -/
def leading (a : α) (l : List α) : Nat := (l.takeWhile (· = a)).length

theorem leading_cons_self (a : α) (l : List α) : leading a (a :: l) = leading a l + 1 := by
  simp [leading]

theorem leading_cons_of_ne (l : List α) (h : b ≠ a) : leading a (b :: l) = 0 := by
  simp [leading, h]

theorem le_leading_of_prefix {n : Nat} (h : List.replicate n a <+: l) : n ≤ leading a l := by
  induction n generalizing l with
  | zero => exact Nat.zero_le _
  | succ n ih =>
    cases l with
    | nil => cases List.prefix_nil.mp h
    | cons b l =>
      obtain ⟨rfl, htail⟩ := List.cons_prefix_cons.mp h
      rw [leading_cons_self]
      exact Nat.succ_le_succ (ih htail)

end Leading

/-- A message that the consumer has taken. -/
structure Receive where
  chan : Nat
  /-- Another channel had a message when the call started. -/
  contested : Bool
  deriving DecidableEq, Repr

/-- A `Multiplex` with the record of what it yields. -/
structure Logged (ι V : Type) where
  st : St ι V
  /-- The weights the channels were added with. -/
  weight : Nat → Nat
  /-- The channels that had a message when the present call started. -/
  ready : List Nat
  /-- The latest one is the first. -/
  log : List Receive

section Log

variable {ι V : Type}

/-- The channels with a message. -/
def St.ready (s : St ι V) : List Nat :=
  (List.range s.len).filter fun c => !(s.chan c).queue.isEmpty

/-- Nothing is logged yet. -/
def Logged.new : Logged ι V := ⟨St.new, fun _ => 0, [], []⟩

/-- The message that is taken is recorded. -/
def Logged.took (w : Logged ι V) (t : St ι V) : Logged ι V :=
  match t.pc with
  | .got i _ => { w with st := t, log := ⟨i, w.ready.any (· != i)⟩ :: w.log }
  | _ => { w with st := t }

/-- What an action that leads to `t` leaves in the record. -/
def Logged.note (w : Logged ι V) (t : St ι V) : Act ι V → Logged ι V
  | .call _ => { w with st := t, ready := w.st.ready }
  | .add _ _ weight => { w with st := t, weight := update w.weight w.st.len weight }
  | .go _ => w.took t
  | _ => { w with st := t }

variable [DecidableEq ι]

/-- A step with its log. -/
def loggedStep (w : Logged ι V) (a : Act ι V) : Option (Logged ι V) :=
  (step w.st a).map fun t => w.note t a

/-- The runs with a log. -/
def loggedSystem : System (Logged ι V) (Act ι V) where
  init w := w = .new
  step := loggedStep

/-- A channel is added with a weight that is a `u32`, not zero, and covers what is left of the
budget, and not right after a message that was contested. -/
def addOk (w : Logged ι V) : Act ι V → Prop
  | .add _ _ weight => 1 ≤ weight ∧ weight < 2 ^ 32 ∧ w.st.count ≤ weight ∧
      ∀ r ∈ w.log.head?, r.contested = false
  | _ => True

end Log

/-! ## The first scan of a call -/

section Asks

variable {ι V : Type}

/-- What the consumer knows of the channels that had a message when the call started. -/
structure Asks (w : Logged ι V) : Prop where
  start : w.st.pc = .cached ∨ w.st.pc = .tryOpened →
    ∀ c ∈ w.ready, c < w.st.len ∧ (w.st.chan c).queue ≠ []
  /-- They are still to be asked, and the channel at `last_idx` is the last one. -/
  first : ∀ k start idx left, w.st.pc = .scan k start idx (left + 1) → k.first = true →
    w.st.lastIdx ∉ ahead w.st.len idx left ∧
    ∀ c ∈ w.ready, (w.st.chan c).queue ≠ [] ∧
      (c = w.st.lastIdx ∨ c ∈ ahead w.st.len idx (left + 1))
  /-- Only the channel at `last_idx` can have been missed. -/
  late : w.st.pc.late = true → ∀ c ∈ w.ready, c = w.st.lastIdx

variable {w : Logged ι V} {t : St ι V}

theorem asks_of_out (hpc : w.st.pc = .idle ∨ ∃ i v, w.st.pc = .got i v) : Asks w := by
  refine ⟨fun h => ?_, fun k start idx left h => ?_, fun h => ?_⟩ <;>
    obtain hpc | ⟨i, v, hpc⟩ := hpc <;> simp [hpc, Pc.late] at h

theorem asks_of_late (hpc : w.st.pc.late = true) (h : ∀ c ∈ w.ready, c = w.st.lastIdx) :
    Asks w where
  start hstart := by
    rcases hstart with hstart | hstart <;> rw [hstart] at hpc <;> cases hpc
  first k start idx left hscan hfirst := by
    simp [hscan, Pc.late, hfirst] at hpc
  late _ := h

/-- A first scan that has gone some rounds; when it is over, only the channel at `last_idx` can
have been missed. -/
theorem asks_of_first {k : Scan} {start idx left : Nat} (hpc : w.st.pc = .scan k start idx left)
    (hfirst : k.first = true) (hlast : w.st.lastIdx ∉ ahead w.st.len idx (left - 1))
    (hready : ∀ c ∈ w.ready, (w.st.chan c).queue ≠ [] ∧
      (c = w.st.lastIdx ∨ c ∈ ahead w.st.len idx left)) : Asks w := by
  cases left with
  | zero =>
    refine asks_of_late (by simp [hpc, Pc.late]) fun c hc => ?_
    exact (hready c hc).2.resolve_right (List.not_mem_nil)
  | succ left =>
    refine ⟨fun h => ?_, fun k' start' idx' left' h _ => ?_, fun h => ?_⟩
    · simp [hpc] at h
    · rw [hpc] at h
      cases h
      exact ⟨hlast, hready⟩
    · simp [hpc, Pc.late, hfirst] at h

theorem ready_lt {s : St ι V} {c : Nat} (h : c ∈ s.ready) :
    c < s.len ∧ (s.chan c).queue ≠ [] := by
  simp only [St.ready, List.mem_filter, List.mem_range, Bool.not_eq_true',
    List.isEmpty_eq_false_iff] at h
  exact h

/-- A scan that starts behind `last_idx`, with a round for each of the others at least. -/
theorem asks_of_start {k : Scan} {n : Nat} (hplaced : Placed w.st)
    (hready : ∀ c ∈ w.ready, c < w.st.len ∧ (w.st.chan c).queue ≠ [])
    (hlen : t.len = w.st.len) (hlast : t.lastIdx = w.st.lastIdx) (hchan : t.chan = w.st.chan)
    (hpc : t.pc = .scan k w.st.lastIdx w.st.lastIdx n) (hfirst : k.first = true)
    (hn : n = w.st.len ∨ n = w.st.len - 1) : Asks { w with st := t } := by
  refine asks_of_first hpc hfirst ?_ fun c hc => ?_
  · show t.lastIdx ∉ ahead t.len w.st.lastIdx (n - 1)
    rw [hlen, hlast]
    rcases Nat.eq_zero_or_pos w.st.len with hzero | hpos
    · rw [show n - 1 = 0 by omega]
      exact List.not_mem_nil
    · exact not_mem_ahead (hplaced.last hpos) (by omega)
  · obtain ⟨hlt, hqueue⟩ := hready c hc
    show (t.chan c).queue ≠ [] ∧ (c = t.lastIdx ∨ c ∈ ahead t.len w.st.lastIdx n)
    rw [hlen, hlast, hchan]
    refine ⟨hqueue, ?_⟩
    rcases hn with rfl | rfl
    · exact .inr (mem_ahead hlt)
    · by_cases hne : c = w.st.lastIdx
      · exact .inl hne
      · exact .inr (mem_ahead_of_ne (hplaced.last (Nat.zero_lt_of_lt hlt)) hlt hne)

/-- A round that finds nothing. -/
theorem Asks.miss {k : Scan} {start idx left : Nat} (h : Asks w)
    (hpc : w.st.pc = .scan k start idx (left + 1))
    (hqueue : (w.st.chan (next w.st.len idx)).queue = []) :
    Asks { w with
      st := (w.st.index (next w.st.len idx)).setPc (.scan k start (next w.st.len idx) left) } := by
  by_cases hfirst : k.first = true
  · obtain ⟨hlast, hready⟩ := h.first k start idx left hpc hfirst
    refine asks_of_first rfl hfirst ?_ fun c hc => ?_
    · cases left with
      | zero => exact List.not_mem_nil
      | succ left => exact fun hmem => hlast (List.mem_cons_of_mem _ hmem)
    · obtain ⟨hne, hmem⟩ := hready c hc
      refine ⟨hne, hmem.imp_right fun hmem => ?_⟩
      rcases List.mem_cons.mp hmem with rfl | hmem
      · exact absurd hqueue hne
      · exact hmem
  · refine asks_of_late ?_ (h.late ?_)
    · simp [St.setPc, Pc.late, hfirst]
    · simp [hpc, Pc.late, hfirst]

/-- A scan finds a message of the channel at `last_idx` only if no other channel had one when the
call started. -/
theorem Asks.ne_last {k : Scan} {start idx left c : Nat} (h : Asks w)
    (hpc : w.st.pc = .scan k start idx (left + 1)) (hc : c ∈ w.ready)
    (hne : c ≠ next w.st.len idx) : next w.st.len idx ≠ w.st.lastIdx := by
  intro heq
  by_cases hfirst : k.first = true
  · obtain ⟨hlast, hready⟩ := h.first k start idx left hpc hfirst
    cases left with
    -- the last round: the others have been asked
    | zero =>
      rcases (hready c hc).2 with hc | hmem
      · exact hne (hc.trans heq.symm)
      · exact hne (List.mem_singleton.mp hmem)
    | succ left => exact hlast (List.mem_cons.mpr (.inl heq.symm))
  · exact hne ((h.late (by simp [hpc, Pc.late, hfirst]) c hc).trans heq.symm)

/-- A step of somebody else. -/
theorem Asks.aside (h : Asks w) (hstill : Still w.st t) (hpc : t.pc = w.st.pc) :
    Asks { w with st := t } where
  start hstart c hc := by
    show c < t.len ∧ (t.chan c).queue ≠ []
    have hstart : t.pc = .cached ∨ t.pc = .tryOpened := hstart
    rw [hpc] at hstart
    rw [hstill.len]
    exact (h.start hstart c hc).imp_right (hstill.queue c)
  first k start idx left hscan hfirst := by
    show t.lastIdx ∉ ahead t.len idx left ∧ ∀ c ∈ w.ready, (t.chan c).queue ≠ [] ∧
      (c = t.lastIdx ∨ c ∈ ahead t.len idx (left + 1))
    obtain ⟨hlast, hready⟩ := h.first k start idx left (hpc.symm.trans hscan) hfirst
    rw [hstill.len, hstill.lastIdx]
    exact ⟨hlast, fun c hc => (hready c hc).imp_left (hstill.queue c)⟩
  late hlate c hc := by
    have hlate : t.pc.late = true := hlate
    rw [hpc] at hlate
    exact (h.late hlate c hc).trans hstill.lastIdx.symm

end Asks

/-! ## The budget -/

section Fair

variable {ι V : Type}

/-- What the log says about the weights. -/
structure Fair (w : Logged ι V) : Prop where
  placed : Placed w.st
  asks : Asks w
  weight : ∀ c, c < w.st.len → (w.st.chan c).weight + 1 = w.weight c
  chan : ∀ r ∈ w.log, r.chan < w.st.len
  budget : 0 < w.st.len → w.st.count ≤ w.weight w.st.lastIdx
  /-- The channel that yields contested messages is the one at `last_idx`, and they are paid for. -/
  streak : ∀ i, leading ⟨i, true⟩ w.log = 0 ∨
    i = w.st.lastIdx ∧ leading ⟨i, true⟩ w.log + w.st.count ≤ w.weight i
  block : ∀ i n, List.replicate n ⟨i, true⟩ <:+: w.log → n ≤ w.weight i

variable {w : Logged ι V} {t : St ι V} {ready : List Nat}

/-- Nothing is received yet. -/
theorem fair_new : Fair (Logged.new : Logged ι V) where
  placed := placed_new
  asks := asks_of_out (.inl rfl)
  weight _ h := absurd h (Nat.not_lt_zero _)
  chan _ h := absurd h List.not_mem_nil
  budget h := absurd h (Nat.lt_irrefl 0)
  streak _ := .inl rfl
  block i n h := by
    have hlen := h.length_le
    rw [List.length_replicate] at hlen
    exact hlen.trans (Nat.zero_le _)

/-- No message is taken and no channel is added. -/
theorem Fair.still (h : Fair w) (hlen : t.len = w.st.len) (hlast : t.lastIdx = w.st.lastIdx)
    (hcount : t.count = w.st.count) (hweight : ∀ c, (t.chan c).weight = (w.st.chan c).weight)
    (hplaced : Placed t) (hasks : Asks { w with st := t, ready := ready }) :
    Fair { w with st := t, ready := ready } where
  placed := hplaced
  asks := hasks
  weight c hc := by
    show (t.chan c).weight + 1 = w.weight c
    rw [hweight]
    exact h.weight c (hlen ▸ hc)
  chan r hr := by
    show r.chan < t.len
    rw [hlen]
    exact h.chan r hr
  budget hpos := by
    show t.count ≤ w.weight t.lastIdx
    rw [hlast, hcount]
    exact h.budget (hlen ▸ hpos)
  streak i := by
    show _ ∨ i = t.lastIdx ∧ _ + t.count ≤ w.weight i
    rw [hlast, hcount]
    exact h.streak i
  block := h.block

/-- A message of channel `i` is taken. If it is contested, it is the first one of the channel in a
row or it is paid for with the budget that was left. -/
theorem Fair.take {i : Nat} {v : V} (h : Fair w) (hplaced : Placed t) (hlen : t.len = w.st.len)
    (hweight : ∀ c, (t.chan c).weight = (w.st.chan c).weight) (hpc : t.pc = .got i v)
    (hi : i < w.st.len) (hlast : t.lastIdx = i) (hcount : t.count ≤ w.weight i)
    (hpaid : (∃ c ∈ w.ready, c ≠ i) →
      leading ⟨i, true⟩ w.log + 1 + t.count ≤ w.weight i) : Fair (w.took t) := by
  obtain ⟨b, hb⟩ : ∃ b, w.ready.any (· != i) = b := ⟨_, rfl⟩
  have htook : w.took t = { w with st := t, log := ⟨i, b⟩ :: w.log } := by
    unfold Logged.took
    rw [hpc, ← hb]
  have hstreak : ∀ j, leading ⟨j, true⟩ (⟨i, b⟩ :: w.log) = 0 ∨
      j = i ∧ leading ⟨j, true⟩ (⟨i, b⟩ :: w.log) + t.count ≤ w.weight j := by
    intro j
    by_cases heq : (⟨i, b⟩ : Receive) = ⟨j, true⟩
    · cases heq
      rw [leading_cons_self]
      refine .inr ⟨rfl, hpaid ?_⟩
      simpa using hb
    · exact .inl (leading_cons_of_ne _ heq)
  rw [htook]
  refine ⟨hplaced, asks_of_out (.inr ⟨i, v, hpc⟩), fun c hc => ?_, ?_, fun _ => ?_, ?_, ?_⟩
  · show (t.chan c).weight + 1 = w.weight c
    rw [hweight]
    exact h.weight c (hlen ▸ hc)
  · intro r hr
    show r.chan < t.len
    rw [hlen]
    rcases List.mem_cons.mp hr with rfl | hr
    · exact hi
    · exact h.chan r hr
  · show t.count ≤ w.weight t.lastIdx
    rwa [hlast]
  · intro j
    show _ ∨ j = t.lastIdx ∧ _
    rw [hlast]
    exact hstreak j
  · intro j n hblock
    rcases List.infix_cons_iff.mp hblock with hfront | hold
    · have hle := le_leading_of_prefix hfront
      rcases hstreak j with hzero | ⟨_, hpaid⟩ <;> show n ≤ w.weight j <;> omega
    · exact h.block j n hold

/-- A step of the receiver. -/
theorem fair_of_goes (h : Fair w) (hgoes : Goes w.st t) : Fair (w.took t) := by
  have hplaced := placed_of_goes h.placed hgoes
  cases hgoes with
  | cachedHit v rest hpc hbudget hqueue =>
    have hlt := h.placed.last_lt hbudget
    have hle := h.budget (Nat.zero_lt_of_lt hlt)
    refine h.take hplaced rfl ?_ rfl hlt rfl ((Nat.sub_le _ 1).trans hle) fun _ => ?_
    · exact fun c => field_update Chan.weight (by rfl) c
    · show _ + 1 + (w.st.count - 1) ≤ _
      rcases h.streak w.st.lastIdx with hzero | ⟨_, hpaid⟩ <;> omega
  | cachedMiss n hpc hn =>
    exact h.still rfl rfl rfl (fun _ => rfl) hplaced
      (asks_of_start h.placed (h.asks.start (.inl hpc)) rfl rfl rfl rfl rfl hn)
  | tryOpened k hpc hfirst =>
    exact h.still rfl rfl rfl (fun _ => rfl) hplaced
      (asks_of_start h.placed (h.asks.start (.inr hpc)) rfl rfl rfl rfl hfirst (.inl rfl))
  | hit k start idx left v rest hpc hqueue =>
    have hlt := (h.placed.next_lt hpc).2
    have hweight := h.weight _ hlt
    refine h.take hplaced rfl ?_ rfl hlt rfl ?_ fun hcontested => ?_
    · exact fun c => field_update Chan.weight (by rfl) c
    · show (w.st.chan (next w.st.len idx)).weight ≤ _
      omega
    -- the channel was not the one at `last_idx`
    · obtain ⟨c, hc, hne⟩ := hcontested
      have hfresh := (h.streak (next w.st.len idx)).resolve_right fun hlast =>
        h.asks.ne_last hpc hc hne hlast.1
      show _ + 1 + (w.st.chan (next w.st.len idx)).weight ≤ _
      omega
  | miss k start idx left hpc hqueue =>
    exact h.still rfl rfl rfl (fun _ => rfl) hplaced (h.asks.miss hpc hqueue)
  | late _ hstill hpc hlate hrounds =>
    have htook : w.took t = { w with st := t } := by
      unfold Logged.took
      split
      · next hgot =>
          rw [hgot] at hlate
          cases hlate
      · rfl
    rw [htook]
    refine h.still hstill.len hstill.lastIdx hstill.count hstill.weight hplaced ?_
    exact asks_of_late hlate fun c hc => (h.asks.late hpc c hc).trans hstill.lastIdx.symm
  | returns _ hstill hidle =>
    have htook : w.took t = { w with st := t } := by
      unfold Logged.took
      rw [hidle]
    rw [htook]
    exact h.still hstill.len hstill.lastIdx hstill.count hstill.weight hplaced
      (asks_of_out (.inl hidle))

/-- A weight that is a `u32` and not zero comes back from the handle. -/
theorem u32_pred {n : Nat} (hpos : 1 ≤ n) (hlt : n < 2 ^ 32) : u32 (n + (2 ^ 32 - 1)) + 1 = n := by
  unfold u32
  omega

variable [DecidableEq ι]

/-- A channel is added. -/
theorem Fair.add {j : ι} {cap : Option Nat} {weight : Nat} (h : Fair w)
    (hok : addOk w (.add j cap weight)) (hidle : w.st.pc = .idle) :
    Fair (w.note (w.st.addItem j cap weight) (.add j cap weight)) := by
  obtain ⟨hpos, hlt, hcount, hhead⟩ := hok
  have hkeep {c : Nat} (hc : c < w.st.len) :
      update w.weight w.st.len weight c = w.weight c :=
    update_of_ne (Nat.ne_of_lt hc) weight w.weight
  refine ⟨placed_of_turns h.placed (.add j cap weight hidle), asks_of_out (.inl hidle), ?_, ?_, ?_,
    ?_, ?_⟩
  · intro c hc
    show (update w.st.chan w.st.len _ c).weight + 1 =
      update w.weight w.st.len weight c
    rcases Nat.lt_succ_iff_lt_or_eq.mp hc with hlt' | rfl
    · rw [update_of_ne (Nat.ne_of_lt hlt'), hkeep hlt']
      exact h.weight c hlt'
    · rw [update_self, update_self]
      exact u32_pred hpos hlt
  · exact fun r hr => Nat.lt_succ_of_lt (h.chan r hr)
  · intro _
    show w.st.count ≤ update w.weight w.st.len weight w.st.len
    rwa [update_self]
  -- the message before the channel was added was not contested
  · intro i
    refine .inl ?_
    show leading ⟨i, true⟩ w.log = 0
    cases hlog : w.log with
    | nil => rfl
    | cons r log =>
      rw [hlog] at hhead
      refine leading_cons_of_ne log fun heq => ?_
      have hfalse := hhead r rfl
      rw [heq] at hfalse
      cases hfalse
  · intro i n hblock
    show n ≤ update w.weight w.st.len weight i
    cases n with
    | zero => exact Nat.zero_le _
    | succ n =>
      have hmem : (⟨i, true⟩ : Receive) ∈ w.log :=
        hblock.subset (List.mem_replicate.mpr ⟨Nat.succ_ne_zero n, rfl⟩)
      rw [hkeep (h.chan _ hmem)]
      exact h.block i (n + 1) hblock

/-- **Every action keeps the weights.** -/
theorem fair_of_turns {a : Act ι V} (h : Fair w) (hok : addOk w a) (hturns : Turns w.st a t) :
    Fair (w.note t a) := by
  have hplaced := placed_of_turns h.placed hturns
  cases hturns with
  | call c hidle =>
    refine h.still rfl rfl rfl (fun _ => rfl) hplaced ?_
    refine ⟨fun _ c hc => ready_lt hc, fun k start idx left hscan => ?_, fun hlate => ?_⟩
    · have hrounds := rounds_startPc (V := V) c
      have hscan : startPc c = .scan k start idx (left + 1) := hscan
      rw [hscan] at hrounds
      cases hrounds
    · have hlate : (startPc c : Pc V).late = true := hlate
      cases c with
      | recv | tryRecv => cases hlate
      | recvTimeout overflow => cases overflow <;> cases hlate
  | add j cap weight hidle => exact h.add hok hidle
  | go choice _ hgoes => exact fair_of_goes h hgoes
  | aside _ _ hact hstill hpc =>
    have hnote : w.note t a = { w with st := t } := by
      cases a with
      | call | add | go => cases hact
      | clone | upgrade | send | dropTx | goSender => rfl
    rw [hnote]
    exact h.still hstill.len hstill.lastIdx hstill.count hstill.weight hplaced
      (h.asks.aside hstill hpc)

instance (w : Logged ι V) : (a : Act ι V) → Decidable (addOk w a)
  | .add _ _ _ => inferInstanceAs (Decidable (_ ∧ _))
  | .call _ | .go _ | .clone _ _ | .upgrade _ _ | .send _ _ | .dropTx _ | .goSender _ _ =>
    instDecidableTrue

end Fair

end Crossfire.Multiplex
