import Crossfire.Oneshot.Ownership

/-!
# Oneshot delivery

A receiver call that ends in `_consume_value` returns what the state byte it was given says: the
value if `EXIST_FLAG` is set, nothing otherwise. Every failed compare-exchange of the receiver is
read as "the sender has locked the byte". `RxWord` shows that this reading is right for `poll` and
for the loop of `_recv_blocking`, because the receiver knows which unlocked byte it left behind.

It is wrong in one place: a blocking `recv` after a `poll` that returned `Pending` finds its own
`WAKER_SET_FLAG`, takes the byte for a locked one and reports a disconnection while the sender is
alive (`recv_after_pending_poll`). `delivery` is the property for every run that does not take this
step.
-/

set_option autoImplicit false

namespace Crossfire.Oneshot

open Lib.Interleaving

variable {τ κ : Type} {willWake : κ → κ → Bool} {s t : St τ κ}

/-- Results after which the receiver has its answer. -/
def Res.final : Res τ → Bool
  | .ok _ | .disconnected | .timeout => true
  | .empty | .pending => false

/-- `set_waker` of a blocking call is about to run on a byte that still has the waker flag of an
earlier `poll`. -/
def staleWaker (s : St τ κ) : Bool :=
  match s.rx with
  | .setWakerCas (.block _) => s.state == wakerSetFlag
  | _ => false

/-- The step is not the compare-exchange of a blocking `set_waker` on a stale waker flag. -/
def freshSetWaker (s : St τ κ) : Act τ κ → Prop
  | .stepRx _ => staleWaker s = false
  | _ => True

instance (s : St τ κ) (a : Act τ κ) : Decidable (freshSetWaker s a) :=
  match a with
  | .stepRx _ => inferInstanceAs (Decidable (staleWaker s = false))
  | .send _ | .dropTx | .stepTx _ | .tryRecv | .poll _ | .recv _ | .dropRx =>
    inferInstanceAs (Decidable True)

/-! ## What the receiver knows about an unlocked byte -/

/-- The `exist` argument of a running `_notify_rx`. -/
def TxPc.exist : TxPc τ κ → Option Bool
  | .notify exist _ | .readWaker exist | .wake exist _ | .finish exist => some exist
  | _ => none

/-- The value, if there is one, is in the block. -/
def TxPc.published : TxPc τ κ → Bool
  | .alive | .sendValue _ => false
  | _ => true

/-- The unlocked byte the receiver left behind: its own waker flag after registering, none
before. -/
def RxWord (s : St τ κ) : Prop :=
  match s.rx with
  | .pollSlot _ | .pollCancel _ | .recvLoop _ | .park _ | .abandon => s.state ≠ 0
  | .setWaker (.poll _) | .setWakerCas (.poll _) => s.state ≠ wakerSetFlag
  | _ => True

theorem TxStep.rx_eq (h : TxStep s t) : t.rx = s.rx := by
  cases h <;> rfl

/-- The sender writes only locked bytes, with the `exist` of the running `_notify_rx`. -/
theorem TxStep.state_cases (h : TxStep s t) : t.state = s.state ∨ ∃ exist, s.tx.exist = some exist ∧
      (t.state = lockedState exist ∨ t.state = closedState exist) := by
  cases h with
  | lock exist pc =>
    exact .inr ⟨exist, by rw [pc]; rfl, .inr (notifyState_zero exist)⟩
  | lockWaker exist old pc word waker =>
    exact .inr ⟨exist, by rw [pc]; rfl, .inl (by rw [notifyState, if_neg waker, lockedState])⟩
  | finish exist pc => exact .inr ⟨exist, by rw [pc]; rfl, .inr rfl⟩
  | store | retry | read | readNone | wake | finishErr | free => exact .inl rfl

theorem RxWord.tx (h : RxWord s) (hstep : TxStep s t) : RxWord t := by
  unfold RxWord at *
  rw [hstep.rx_eq]
  rcases hstep.state_cases with heq | ⟨exist, _, heq | heq⟩
  · rw [heq]
    exact h
  all_goals
    rw [heq]
    split <;> first | trivial | (cases exist <;> decide)

theorem ne_zero_of_wakerSet {state : UInt8} (h : hasFlag state wakerSetFlag = true) :
    state ≠ 0 := by
  rintro rfl
  simp [hasFlag] at h

theorem ne_wakerSet_of_not {state : UInt8} (h : hasFlag state wakerSetFlag = false) :
    state ≠ wakerSetFlag := by
  rintro rfl
  exact absurd h (by decide)

variable {c : Bool}

theorem rxWord_afterState {item : Option τ} {st : UInt8}
    (hpc : s.rx = afterState c item st) : RxWord s := by
  unfold RxWord
  rw [hpc, afterState]
  split_ifs <;> trivial

theorem rxWord_afterConsume (hpc : s.rx = afterConsume c) : RxWord s := by
  unfold RxWord
  rw [hpc]
  cases c <;> trivial

/-- A step of the receiver. -/
theorem RxWord.rx (h : RxWord s) (hstep : RxStep willWake s t) : RxWord t := by
  unfold RxWord at h
  cases hstep with
  | move pc token hmove =>
    cases hmove with
    | pollWaker k pc lock waker => exact ne_zero_of_wakerSet waker
    | pollFresh k pc lock waker => exact ne_wakerSet_of_not waker
    | slotOther k old pc | loopTimeout d pc | loopPark d pc | parkReturn d pc =>
      rw [pc] at h
      exact h
    | takeNone | closeErr => exact rxWord_afterState rfl
    | _ => trivial
  | cancel k pc => exact (by decide : (0 : UInt8) ≠ wakerSetFlag)
  | set c pc =>
    rw [pc] at h
    cases c <;> exact h
  | setBlock d pc => exact (by decide : wakerSetFlag ≠ (0 : UInt8))
  | take => exact rxWord_afterState rfl
  | close | free => exact rxWord_afterConsume rfl
  | dropClose =>
    unfold RxWord
    dsimp only
    split_ifs <;> trivial
  | empty | slotSame | setPoll | timeout | dropFree => trivial

theorem RxWord.call {a : Act τ κ} (h : RxWord s) (hstep : CallStep s a t) : RxWord t := by
  cases hstep with
  | send | dropTx => exact h
  | none => exact rxWord_afterConsume rfl
  | tryRecv | poll | recv | dropRx | dropNone => trivial

/-- A byte that a failed compare-exchange or a load of the receiver handed to `_consume_value`
outside of the stale case is locked. -/
theorem Word.lock_of_ne {g : Stage} {state : UInt8} {n : Nat} (h : Word g true state n)
    (hzero : state ≠ 0) (hwaker : state ≠ wakerSetFlag) : hasFlag state lockFlag = true := by
  cases h with
  | fresh => exact absurd rfl hzero
  | waker => exact absurd rfl hwaker
  | waking exist | closed exist => cases exist <;> rfl

/-! ## What the sender has published -/

/-- The history of the sender agrees with its program counter and with the byte. -/
structure Sender (s : St τ κ) : Prop where
  fresh : s.tx = .alive → s.txDropped = false ∧ s.sent = none
  started : s.tx ≠ .alive → (s.txDropped = true ↔ s.sent = none)
  exist : ∀ exist, s.tx.exist = some exist → exist = s.sent.isSome
  lock : hasFlag s.state lockFlag = true →
    hasFlag s.state existFlag = s.sent.isSome ∧ s.tx.published = true

theorem sender_new : Sender (St.new : St τ κ) where
  fresh _ := ⟨rfl, rfl⟩
  started h := absurd rfl h
  exist := nofun
  lock h := by simp [St.new, hasFlag] at h

theorem existFlag_lockedState (exist : Bool) : hasFlag (lockedState exist) existFlag = exist := by
  cases exist <;> rfl

theorem existFlag_closedState (exist : Bool) : hasFlag (closedState exist) existFlag = exist := by
  cases exist <;> rfl

/-- A sender that has published sends no more. -/
theorem TxStep.history (h : TxStep s t) :
    t.sent = s.sent ∧ t.txDropped = s.txDropped ∧ s.tx ≠ .alive ∧ t.tx ≠ .alive ∧
      t.tx.published = true := by
  cases h with
  | retry exist old pc =>
    refine ⟨rfl, rfl, by simp [pc], afterNotify_ne.1, ?_⟩
    dsimp only [afterNotify]
    split_ifs <;> rfl
  | store v pc | lock e pc | lockWaker e old pc | read e w pc | readNone e pc | wake e w tok pc
  | finish e pc | finishErr e pc | free pc =>
    exact ⟨rfl, rfl, by simp [pc], nofun, rfl⟩

/-- A running `_notify_rx` keeps its `exist`; `send` starts it with `true`. -/
theorem TxStep.exist_cases (h : TxStep s t) {e : Bool}
    (he : t.tx.exist = some e) : s.tx.exist = some e ∨ ∃ v, e = true ∧ s.tx = .sendValue v := by
  cases h with
  | store v pc =>
    cases he
    exact .inr ⟨v, rfl, pc⟩
  | retry exist old pc =>
    dsimp only [afterNotify] at he
    split_ifs at he
    · rw [pc]
      exact .inl he
    all_goals cases he
  | lockWaker _ _ pc | read _ _ pc | wake _ _ _ pc =>
    rw [pc]
    exact .inl he
  | lock | readNone | finish | finishErr | free => cases he

/-- A step of the sender. -/
theorem Sender.tx (h : Sender s) (hacc : Accounted s) (hstep : TxStep s t) : Sender t := by
  obtain ⟨hsent, hdropped, hs, ht, hpub⟩ := hstep.history
  refine ⟨fun hpc => absurd hpc ht, fun _ => ?_, fun e he => ?_, fun hlock => ⟨?_, hpub⟩⟩
  · rw [hsent, hdropped]
    exact h.started hs
  · rw [hsent]
    rcases hstep.exist_cases he with he | ⟨v, rfl, pc⟩
    · exact h.exist e he
    · rw [hacc.sending v pc]
      rfl
  · rw [hsent]
    rcases hstep.state_cases with heq | ⟨e, he, heq | heq⟩
    · rw [heq] at hlock ⊢
      exact (h.lock hlock).1
    · rw [heq, existFlag_lockedState]
      exact h.exist e he
    · rw [heq, existFlag_closedState]
      exact h.exist e he

/-- What the receiver leaves alone. -/
theorem RxStep.frame (h : RxStep willWake s t) :
    t.tx = s.tx ∧ t.sent = s.sent ∧ t.txDropped = s.txDropped ∧
      (t.state = s.state ∨ hasFlag t.state lockFlag = false ∨
        (s.rx.holds = true ∧ t.state = s.state ||| closeFlag)) := by
  cases h with
  | cancel => exact ⟨rfl, rfl, rfl, .inr (.inl (by decide : hasFlag 0 lockFlag = false))⟩
  | setPoll | setBlock =>
    exact ⟨rfl, rfl, rfl, .inr (.inl (by decide : hasFlag wakerSetFlag lockFlag = false))⟩
  | timeout => exact ⟨rfl, rfl, rfl, .inr (.inl (by decide : hasFlag closeFlag lockFlag = false))⟩
  | close c item st pc word =>
    refine ⟨rfl, rfl, rfl, .inr (.inr ⟨by rw [pc]; rfl, ?_⟩)⟩
    simp only [St.retRx, word, UInt8.or_comm closeFlag]
  | dropClose pc => exact ⟨rfl, rfl, rfl, .inr (.inr ⟨by rw [pc]; rfl, rfl⟩)⟩
  | move | empty | slotSame | set | take | free | dropFree => exact ⟨rfl, rfl, rfl, .inl rfl⟩

/-- A step of the receiver. -/
theorem Sender.rx (h : Sender s) (hinv : Inv s) (hstep : RxStep willWake s t) : Sender t := by
  obtain ⟨htx, hsent, hdropped, hstate⟩ := hstep.frame
  refine ⟨?_, ?_, ?_, fun hlock => ?_⟩
  · rw [htx, hsent, hdropped]
    exact h.fresh
  · rw [htx, hsent, hdropped]
    exact h.started
  · rw [htx, hsent]
    exact h.exist
  · rw [htx, hsent]
    rcases hstate with heq | hnot | ⟨hrx, heq⟩
    · rw [heq] at hlock ⊢
      exact h.lock hlock
    · rw [hnot] at hlock
      cases hlock
    · have hword := hinv.word
      rw [hrx] at hword
      rw [heq, hword.flag_or_close lockFlag (by simp)] at hlock
      rw [heq, hword.flag_or_close existFlag (by simp)]
      exact h.lock hlock

/-- The start of a call. -/
theorem Sender.call {a : Act τ κ} (h : Sender s) (hstep : CallStep s a t) : Sender t := by
  cases hstep with
  | send v pc =>
    refine ⟨nofun, fun _ => ?_, nofun, fun hlock => ?_⟩
    · simp [(h.fresh pc).1]
    · exact absurd (h.lock hlock).2 (by simp [pc, TxPc.published])
  | dropTx pc =>
    refine ⟨nofun, fun _ => ?_, ?_, fun hlock => ?_⟩
    · simp [(h.fresh pc).2]
    · rintro _ ⟨⟩
      simp [(h.fresh pc).2]
    · exact absurd (h.lock hlock).2 (by simp [pc, TxPc.published])
  | tryRecv | poll | recv | dropRx | none | dropNone =>
    exact ⟨h.fresh, h.started, h.exist, h.lock⟩

/-! ## What the receiver was answered -/

/-- What `_consume_value` will return. -/
def RxPc.answer : RxPc τ κ → Option (Option τ)
  | .closeState _ item _ | .freeBlock _ item => some item
  | _ => none

/-- The receiver's calls and results agree with the history of the sender. -/
structure Answered (s : St τ κ) : Prop where
  /-- A receiver that holds the block has no answer yet. -/
  results : s.rx.holds = true → ∀ r ∈ s.results, r.final = false
  consumed : s.rx = .idle false → (s.results.find? Res.final).isSome = true
  take : ∀ c st, s.rx = .takeValue c st →
    hasFlag st existFlag = s.sent.isSome ∧ s.tx.published = true
  answer : ∀ item, s.rx.answer = some item → item = s.sent ∧ s.tx ≠ .alive
  first : s.results.find? Res.final = some .disconnected → s.txDropped = true

theorem answered_new : Answered (St.new : St τ κ) where
  results _ := nofun
  consumed := nofun
  take := nofun
  answer := nofun
  first := nofun

theorem TxStep.results_eq (h : TxStep s t) : t.results = s.results := by
  cases h <;> rfl

/-- A step of the sender. -/
theorem Answered.tx (h : Answered s) (hstep : TxStep s t) : Answered t := by
  obtain ⟨hsent, hdropped, hs, ht, hpub⟩ := hstep.history
  refine ⟨?_, ?_, fun c st => ?_, fun item => ?_, ?_⟩
  · rw [hstep.rx_eq, hstep.results_eq]
    exact h.results
  · rw [hstep.rx_eq, hstep.results_eq]
    exact h.consumed
  · rw [hstep.rx_eq, hsent]
    exact fun pc => ⟨(h.take c st pc).1, hpub⟩
  · rw [hstep.rx_eq, hsent]
    exact fun hitem => ⟨(h.answer item hitem).1, ht⟩
  · rw [hstep.results_eq, hdropped]
    exact h.first

/-- The first final answer. -/
theorem find_final_append {l : List (Res τ)} (h : ∀ r ∈ l, r.final = false) (r : Res τ) :
    (l ++ [r]).find? Res.final = if r.final then some r else none := by
  have hnone : l.find? Res.final = none := by
    rw [List.find?_eq_none]
    intro x hx
    rw [h x hx]
    exact Bool.false_ne_true
  rw [List.find?_append, hnone]
  cases hr : r.final <;> simp [hr]

/-- Outside of the stale case the byte handed to `_consume_value` is locked: the receiver knows the
unlocked byte it would have found otherwise. -/
theorem RxMove.lock_of_take {st : UInt8} (hinv : Inv s) (hrw : RxWord s)
    (hstale : staleWaker s = false) (hmove : RxMove s (.takeValue c st)) :
    st = s.state ∧ hasFlag s.state lockFlag = true := by
  have hword := hinv.word
  unfold RxWord at hrw
  generalize hpc : RxPc.takeValue c st = target at hmove
  cases hmove with
  | tryRecv pc lock | poll k pc lock | spin d pc lock | loop d pc lock =>
    cases hpc
    exact ⟨rfl, lock⟩
  | cancelErr k pc word | abandonErr pc word =>
    rw [pc] at hword hrw
    cases hpc
    exact ⟨rfl, hword.lock_of_ne hrw word⟩
  | setErr c pc word =>
    rw [pc] at hword hrw
    cases hpc
    refine ⟨rfl, hword.lock_of_ne word ?_⟩
    cases c with
    | poll k => exact hrw
    | block d => simpa [staleWaker, pc] using hstale
  | takeNone | closeErr =>
    unfold afterState at hpc
    split_ifs at hpc
  | _ => cases hpc

theorem RxMove.ne_idle {pc : RxPc τ κ} (h : RxMove s pc) : pc ≠ .idle false := by
  cases h with
  | takeNone | closeErr =>
    unfold afterState
    split_ifs <;> nofun
  | _ => nofun

theorem answer_afterState (c : Bool) (item : Option τ) (st : UInt8) :
    (afterState c item st : RxPc τ κ).answer = some item := by
  unfold afterState
  split_ifs <;> rfl

/-- A call goes on. -/
theorem Answered.of_rx (h : Answered s) (hrx : s.rx.holds = true)
    (hres : t.results = s.results) (hdropped : t.txDropped = s.txDropped)
    (hidle : t.rx ≠ .idle false)
    (htake : ∀ c st, t.rx = .takeValue c st →
      hasFlag st existFlag = t.sent.isSome ∧ t.tx.published = true)
    (hanswer : ∀ item, t.rx.answer = some item → item = t.sent ∧ t.tx ≠ .alive) : Answered t where
  results := by rw [hres]; exact fun _ => h.results hrx
  consumed hpc := absurd hpc hidle
  take := htake
  answer := hanswer
  first := by rw [hres, hdropped]; exact h.first

/-- A call returns. -/
theorem Answered.of_ret {r : Res τ} (h : Answered s) (hrx : s.rx.holds = true)
    (hres : t.results = s.results ++ [r]) (hfinal : r.final = !t.rx.holds)
    (htake : ∀ c st, t.rx ≠ .takeValue c st) (hanswer : t.rx.answer = none)
    (hdisc : r = .disconnected → t.txDropped = true) : Answered t where
  results ht := by
    rw [hres]
    intro x hx
    rcases List.mem_append.mp hx with hx | hx
    · exact h.results hrx x hx
    · rw [List.mem_singleton.mp hx, hfinal, ht]
      rfl
  consumed hpc := by
    rw [hpc] at hfinal
    rw [hres, find_final_append (h.results hrx), hfinal]
    rfl
  take c st hpc := absurd hpc (htake c st)
  answer item hitem := by rw [hanswer] at hitem; cases hitem
  first := by
    rw [hres, find_final_append (h.results hrx)]
    split_ifs with hr
    · intro heq
      exact hdisc (Option.some.inj heq)
    · nofun

theorem stored_of_published (h : s.tx.published = true) : s.stored = s.sent.toList := by
  unfold St.stored
  cases hpc : s.tx with
  | alive | sendValue _ => rw [hpc] at h; cases h
  | _ => rfl

theorem ne_alive_of_published {pc : TxPc τ κ} (h : pc.published = true) : pc ≠ .alive := by
  rintro rfl
  cases h

/-- No answer yet means that no value was returned. -/
theorem Answered.returned_eq_nil (h : Answered s) (hrx : s.rx.holds = true) : s.returned = [] := by
  rw [St.returned, List.filterMap_eq_nil_iff]
  intro r hr
  have hfinal := h.results hrx r hr
  cases r <;> first | rfl | cases hfinal

/-- What a moving call will return is what the sender has sent. -/
theorem Answered.answer_of_move {pc : RxPc τ κ} (h : Answered s)
    (hmove : RxMove s pc) {item : Option τ} (hitem : pc.answer = some item) :
    item = s.sent ∧ s.tx ≠ .alive := by
  cases hmove with
  | takeNone c st pc exist =>
    obtain ⟨hsent, hpub⟩ := h.take c st pc
    rw [answer_afterState] at hitem
    rw [exist] at hsent
    have hnone : s.sent = none :=
      Option.not_isSome_iff_eq_none.mp (by rw [← hsent]; exact Bool.false_ne_true)
    exact ⟨(Option.some.inj hitem).symm.trans hnone.symm, ne_alive_of_published hpub⟩
  | closeErr c item' st pc =>
    rw [answer_afterState] at hitem
    exact h.answer item (by rw [pc]; exact hitem)
  | _ => cases hitem

theorem final_consumeRes (item : Option τ) : (consumeRes item).final = true := by
  cases item <;> rfl

/-- `_consume_value` returns: a missing item means that the sender was dropped. -/
theorem Answered.of_consume {item : Option τ} (h : Answered s)
    (hsender : Sender s) (hrx : s.rx.answer = some item) (hpc : t.rx = afterConsume c)
    (hres : t.results = s.results ++ [consumeRes item]) (hdropped : t.txDropped = s.txDropped) :
    Answered t := by
  obtain ⟨hitem, halive⟩ := h.answer item hrx
  have hholds : s.rx.holds = true := by
    cases hs : s.rx with
    | closeState | freeBlock => rfl
    | _ => rw [hs] at hrx; cases hrx
  refine h.of_ret hholds hres ?_ ?_ ?_ ?_
  · rw [final_consumeRes, hpc, holds_afterConsume]
    rfl
  · rw [hpc]
    cases c <;> nofun
  · rw [hpc]
    cases c <;> rfl
  · intro hr
    rw [hdropped]
    refine (hsender.started halive).mpr ?_
    cases item with
    | none => exact hitem.symm
    | some v => cases hr

/-- A step of the receiver. -/
theorem Answered.rx (h : Answered s) (hinv : Inv s)
    (hacc : Accounted s) (hsender : Sender s) (hrw : RxWord s) (hstale : staleWaker s = false)
    (hstep : RxStep willWake s t) : Answered t := by
  cases hstep with
  | move pc token hmove =>
    refine h.of_rx (hmove.spec hinv token).1 rfl rfl hmove.ne_idle ?_
      fun item hitem => h.answer_of_move hmove hitem
    rintro c st rfl
    obtain ⟨rfl, hlock⟩ := hmove.lock_of_take hinv hrw hstale
    exact hsender.lock hlock
  | empty pc | slotSame _ _ pc | setPoll _ pc | timeout pc =>
    exact h.of_ret (by rw [pc]; rfl) rfl rfl nofun rfl nofun
  | cancel k pc | set c pc | setBlock d pc | dropFree pc =>
    exact h.of_rx (by rw [pc]; rfl) rfl rfl nofun nofun nofun
  | take c st pc exist =>
    have hholds : s.rx.holds = true := by rw [pc]; rfl
    obtain ⟨_, hpub⟩ := h.take c st pc
    have hvalue : s.value = s.sent :=
      hacc.value_eq (hinv.frees_of_holds hholds) (stored_of_published hpub) (by rw [pc]; rfl)
        (h.returned_eq_nil hholds)
    refine h.of_rx hholds rfl rfl ?_ ?_ ?_
    · dsimp only [afterState]
      split_ifs <;> nofun
    · dsimp only [afterState]
      split_ifs <;> nofun
    · intro item hitem
      rw [answer_afterState] at hitem
      exact ⟨(Option.some.inj hitem).symm.trans hvalue, ne_alive_of_published hpub⟩
  | close _ _ _ pc | free _ _ pc => exact h.of_consume hsender (by rw [pc]; rfl) rfl rfl rfl
  | dropClose pc =>
    refine h.of_rx (by rw [pc]; rfl) rfl rfl ?_ ?_ ?_
    all_goals
      dsimp only
      split_ifs <;> nofun

/-- A call on a receiver whose `self.0` is `None` comes after the answer. -/
theorem Answered.none (h : Answered s) (hidle : s.rx = .idle false)
    (hpc : t.rx = afterConsume c) (hres : t.results = s.results ++ [.disconnected])
    (hdropped : t.txDropped = s.txDropped) : Answered t := by
  have hfind : t.results.find? Res.final = s.results.find? Res.final := by
    obtain ⟨r, hr⟩ := Option.isSome_iff_exists.mp (h.consumed hidle)
    rw [hres, List.find?_append, hr]
    rfl
  refine ⟨?_, fun _ => ?_, ?_, ?_, ?_⟩
  · rw [hpc, holds_afterConsume]
    nofun
  · rw [hfind]
    exact h.consumed hidle
  · rw [hpc]
    cases c <;> nofun
  · rw [hpc]
    cases c <;> nofun
  · rw [hfind, hdropped]
    exact h.first

/-- The start of a call. -/
theorem Answered.call {a : Act τ κ} (h : Answered s) (hstep : CallStep s a t) : Answered t := by
  cases hstep with
  | send v pc =>
    refine ⟨h.results, h.consumed, fun c st hrx => ?_, fun item hitem => ?_, h.first⟩
    · exact absurd (h.take c st hrx).2 (by simp [pc, TxPc.published])
    · exact absurd pc (h.answer item hitem).2
  | dropTx pc =>
    refine ⟨h.results, h.consumed, fun c st hrx => ?_, fun item hitem => ?_, fun _ => rfl⟩
    · exact absurd (h.take c st hrx).2 (by simp [pc, TxPc.published])
    · exact absurd pc (h.answer item hitem).2
  | tryRecv pc | poll k pc | recv d pc | dropRx pc =>
    exact h.of_rx (by rw [pc]; rfl) rfl rfl nofun nofun nofun
  | none a polled consumes pc => exact h.none pc rfl rfl rfl
  | dropNone pc => exact ⟨nofun, nofun, nofun, nofun, h.first⟩

/-! ## Whole runs -/

/-- **On every run the receiver knows the byte it left behind.** -/
theorem rxWord_of_reach {ok : St τ κ → Act τ κ → Prop}
    (hs : Reach (system willWake) ok s) : RxWord s := by
  refine hs.invariant ?_ ?_
  · rintro _ rfl
    trivial
  · intro s a t h _ hstep
    rcases step_cases willWake hstep with ⟨_, _, htx⟩ | ⟨_, _, hrx⟩ | hcall
    · exact h.tx htx
    · exact h.rx hrx
    · exact h.call hcall

/-- **The answers are right in every run.** -/
theorem answered_of_reach
    (hs : Reach (system willWake) freshSetWaker s) : Sender s ∧ Answered s := by
  induction hs with
  | init hs =>
    cases hs
    exact ⟨sender_new, answered_new⟩
  | step a hreach hok hstep ih =>
    obtain ⟨hsender, h⟩ := ih
    have hinv := inv_of_reach hreach
    have hacc := accounted_of_reach hreach
    rcases step_cases willWake hstep with ⟨_, _, htx⟩ | ⟨_, rfl, hrx⟩ | hcall
    · exact ⟨hsender.tx hacc htx, h.tx htx⟩
    · exact ⟨hsender.rx hinv hrx, h.rx hinv hacc hsender (rxWord_of_reach hreach) hok hrx⟩
    · exact ⟨hsender.call hcall, h.call hcall⟩

/-- Values returned to the receiver were sent, and at most one is. -/
theorem Accounted.returned_le (h : Accounted s) : (s.returned : Multiset τ) ≤ s.sent.toList := by
  have hle : (s.returned : Multiset τ) ≤ s.account := by
    rw [St.account, add_assoc, add_comm, add_assoc]
    exact Multiset.le_add_right _ _
  refine hle.trans ?_
  rw [h.account, St.stored]
  split
  all_goals first | exact Multiset.zero_le _ | exact le_refl _

/-- Delivery, in every run in which no blocking `set_waker` finds the waker flag of an earlier
`poll`: the receiver obtains a value at most once and only the one that was sent, and its first
answer is a disconnection only if the sender was dropped without sending. -/
theorem delivery {willWake : κ → κ → Bool} {s : St τ κ}
    (hs : Reach (system willWake) freshSetWaker s) :
    s.returned.length ≤ 1 ∧ (∀ v, .ok v ∈ s.results → s.sent = some v) ∧
      (s.results.find? Res.final = some .disconnected → s.txDropped = true ∧ s.sent = none) := by
  have hle := (accounted_of_reach hs).returned_le
  obtain ⟨hsender, h⟩ := answered_of_reach hs
  refine ⟨?_, fun v hv => ?_, fun hfirst => ?_⟩
  · have hcard := Multiset.card_le_card hle
    simp only [Multiset.coe_card] at hcard
    exact hcard.trans (by cases s.sent <;> simp)
  · have hmem : v ∈ s.returned := List.mem_filterMap.mpr ⟨.ok v, hv, rfl⟩
    have hsent : v ∈ s.sent.toList := Multiset.mem_of_le hle hmem
    simpa using hsent
  · have hdropped := h.first hfirst
    refine ⟨hdropped, (hsender.started ?_).mp hdropped⟩
    intro halive
    rw [(hsender.fresh halive).1] at hdropped
    cases hdropped

/-- A poll returns `Pending`, the sender is dropped, and the next poll reports it. -/
theorem delivery_after_drop :
    ∃ s : St Nat Nat, Reach (system fun a b => a == b) freshSetWaker s ∧
      s.results = [.pending, .disconnected] ∧ s.txDropped = true ∧ s.sent = none := by
  have hnew : Reach (system fun a b : Nat => a == b) freshSetWaker (St.new : St Nat Nat) :=
    .init rfl
  obtain ⟨s, hs, hres⟩ := hnew.exists_of_run
    [.poll 1, .stepRx false, .stepRx false, .stepRx false, .dropTx, .stepTx false, .stepTx false,
      .stepTx false, .stepTx false, .stepTx false, .poll 2, .stepRx false, .stepRx false,
      .stepRx false]
    (fun s => s.results = [.pending, .disconnected]) (by decide)
  exact ⟨s, hs, hres, (delivery hs).2.2 (by rw [hres]; rfl)⟩

/-- The receiver polls once, gets `Pending`, and calls `recv`: the call reports a disconnection
while the sender has neither sent nor been dropped. -/
theorem recv_after_pending_poll :
    ∃ s : St Nat Nat, Reachable (system fun a b => a == b) s ∧
      s.results = [.pending, .disconnected] ∧ s.tx = .alive ∧ s.txDropped = false := by
  have hnew : Reachable (system fun a b : Nat => a == b) (St.new : St Nat Nat) := .init rfl
  exact hnew.exists_of_run
    [.poll 1, .stepRx false, .stepRx false, .stepRx false, .recv false, .stepRx true, .stepRx false,
      .stepRx false, .stepRx false, .stepRx false] _ (by decide)

end Crossfire.Oneshot
