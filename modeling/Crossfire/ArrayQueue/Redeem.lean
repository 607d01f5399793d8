import Crossfire.ArrayQueue.Narrow

/-!
# Redeeming a token and popping

A queue whose consumer calls `start_read` and `read` runs next to a queue whose consumer calls `pop`
in their place, both with tokens of `w` bits. The two runs go in lockstep (`Alike`), for any queue
that meets the laws of a `Reader` (`Lawful`). When the token is redeemed both are in the same state
if the word fits the token's stamp, and they leave different words in `recv` if it does not.

`redeem_is_pop` says when that is, in terms of the words that `start_read` has loaded: redeeming
equals popping exactly with 64 bits, or when the tail found in them is zero.
-/

set_option autoImplicit false

namespace Crossfire.ArrayQueue

open Lib.Interleaving Lib.Packed Lib.Lap

section Lockstep

variable {σ α π V : Type}

/-- Redeeming `t` in `s₁` equals going on in `s₂`, where a `pop` has found its message: the same
value is returned, the same word is left in `recv`, and nothing that happens later differs. -/
def Reader.Equals (Q : Reader σ α π V) (w : Nat) (s₁ : σ) (t : Token) (s₂ : σ) : Prop :=
  ∃ v₁ v₂, replay (Q.narrowSystem w) s₁ [Q.redeem t, Q.goRx, Q.goRx] = some v₁ ∧
    replay (Q.narrowSystem w) s₂ [Q.goRx, Q.goRx] = some v₂ ∧
    Q.returned v₁ = Q.returned v₂ ∧ Q.recv v₁ = Q.recv v₂ ∧
    ∀ later, replay (Q.narrowSystem w) s₁ (Q.redeem t :: later) =
      replay (Q.narrowSystem w) s₂ later

/-- When redeeming a token equals popping, in the state `s`. The steps `acts` after `start_read` are
no calls of the consumer, and end when the token `t` is returned. A `pop` in place of `start_read`
can take the same steps. The tail that `start_read` finds in the words it loads decides. -/
def RedeemIsPop (Q : Reader σ α π V) (w : Nat) (s : σ) : Prop :=
  ∀ acts s₁ t, (∀ a ∈ acts, (∀ mode, a ≠ Q.start mode) ∧ ∀ t', a ≠ Q.redeem t') →
    replay (Q.narrowSystem w) s (Q.start .select :: acts) = some s₁ →
    Q.tokens s₁ = t :: Q.tokens s →
      ∃ tail s₂, firstSeen (Q.narrowSystem w) Q.seen s (Q.start .select :: acts) = some tail ∧
        replay (Q.narrowSystem w) s (Q.start .pop :: acts) = some s₂ ∧
        (Q.Equals w s₁ t s₂ ↔ w = 64 ∨ tail = 0)

/-- The word of a token, computed from the tail that was found. -/
def Token.Holds (tail : Nat) (t : Token) : Prop :=
  ∃ head, tail < 2 ^ 32 ∧ head < 2 ^ 32 ∧ t.stamp = pack 32 tail head

/-- What the lockstep needs to know of a queue. `Paired o p q` says that a consumer at `p` in
`start_read`, which has found the tail `o`, or none yet, is at `q` in `pop`. -/
structure Reader.Lawful (Q : Reader σ α π V) (Paired : Option Nat → π → π → Prop) : Prop where
  rx_set : ∀ s p l, Q.rx (Q.set s p l) = p
  tokens_set : ∀ s p l, Q.tokens (Q.set s p l) = l
  set_set : ∀ s p l p' l', Q.set (Q.set s p l) p' l' = Q.set s p' l'
  start : ∀ s mode t, Q.system.step s (Q.start mode) = some t ↔
    Q.rx s = Q.idle ∧ Q.set s (Q.load mode) (Q.tokens s) = t
  seen_start : ∀ s mode, Q.seen s (Q.start mode) = none
  paired : Paired none (Q.load .select) (Q.load .pop)
  redeem : ∀ s t, Q.rx s = Q.idle → t ∈ Q.tokens s →
    Q.system.step s (Q.redeem t) = some (Q.set s (Q.read t) ((Q.tokens s).erase t))
  /-- The steps of the producers do not look at the consumer. -/
  other : ∀ s a t, (∀ mode, a ≠ Q.start mode) → (∀ t', a ≠ Q.redeem t') → a ≠ Q.goRx →
    Q.system.step s a = some t → Q.rx t = Q.rx s ∧ Q.tokens t = Q.tokens s ∧ Q.seen s a = none ∧
      ∀ p l, Q.system.step (Q.set s p l) a = some (Q.set t p l)
  rest : ∀ s, Q.rx s = Q.idle → Q.system.step s Q.goRx = none
  /-- `start_read` goes on, and `pop` with it. -/
  goes : ∀ o s q t, Paired o (Q.rx s) q → Q.system.step s Q.goRx = some t →
    (∃ q', Paired (o.or (Q.seen s Q.goRx)) (Q.rx t) q' ∧ Q.tokens t = Q.tokens s ∧
      Q.system.step (Q.set s q (Q.tokens s)) Q.goRx = some (Q.set t q' (Q.tokens s))) ∨
    ∃ tail tok, o.or (Q.seen s Q.goRx) = some tail ∧ tok.Holds tail ∧ Q.rx t = Q.idle ∧
      Q.tokens t = tok :: Q.tokens s ∧
      Q.system.step (Q.set s q (Q.tokens s)) Q.goRx = some (Q.set t (Q.read tok) (Q.tokens s))
  /-- The last two steps: the slot, and the store to `recv`. -/
  take : ∀ w s tok l, ∃ v,
    replay (Q.narrowSystem w) (Q.set s (Q.read tok) l) [Q.goRx, Q.goRx] = some v ∧
      Q.recv v = tok.stamp ∧ Q.returned v = Q.returned s ++ [(tok.k, Q.value s tok.index)]

section Tokens

variable {w tail : Nat} {t : Token}

@[simp]
theorem Token.narrow_narrow : (t.narrow w).narrow w = t.narrow w := by
  simp [Token.narrow]

theorem map_narrow_narrow (tokens : List Token) :
    (tokens.map (Token.narrow w)).map (Token.narrow w) = tokens.map (Token.narrow w) := by
  rw [List.map_map]
  exact List.map_congr_left fun tok _ => Token.narrow_narrow

/-- **The word survives exactly if it fits.** -/
theorem Token.Holds.stamp_narrow_eq (h : t.Holds tail) (hw : w = 32 ∨ w = 64) :
    (t.narrow w).stamp = t.stamp ↔ w = 64 ∨ tail = 0 := by
  obtain ⟨head, htail, hhead, hstamp⟩ := h
  show t.stamp % 2 ^ w = t.stamp ↔ _
  rw [hstamp, pack_eq hhead]
  rcases hw with rfl | rfl <;> omega

end Tokens

variable {Q : Reader σ α π V} {Paired : Option Nat → π → π → Prop} {w : Nat} {base : List Token}
  {o : Option Nat} {s s₁ s₂ t₁ : σ}

/-- A consumer that has called `start_read`, with its tokens, and one that has called `pop`. -/
inductive Matched (Q : Reader σ α π V) (Paired : Option Nat → π → π → Prop) (w : Nat)
    (base : List Token) : Option Nat → π → List Token → π → Prop
  | going {o : Option Nat} {p q : π} (paired : Paired o p q) : Matched Q Paired w base o p base q
  | found {tail : Nat} {t : Token} (holds : t.Holds tail) :
      Matched Q Paired w base (some tail) Q.idle (t.narrow w :: base) (Q.read t)

/-- The two queues differ in the consumer and its tokens only. -/
def Alike (Q : Reader σ α π V) (Paired : Option Nat → π → π → Prop) (w : Nat) (base : List Token)
    (o : Option Nat) (s₁ s₂ : σ) : Prop :=
  ∃ q, s₂ = Q.set s₁ q base ∧ Matched Q Paired w base o (Q.rx s₁) (Q.tokens s₁) q

/-- Narrowing changes nothing in tokens that are narrow already. -/
theorem Matched.narrow {p q : π} {tokens : List Token} (hbase : base.map (Token.narrow w) = base)
    (h : Matched Q Paired w base o p tokens q) : tokens.map (Token.narrow w) = tokens := by
  cases h with
  | going _ => exact hbase
  | found _ => rw [List.map_cons, hbase, Token.narrow_narrow]

/-- Two states that differ in the consumer only stay alike when the tokens become narrow. -/
theorem alike_narrow (hQ : Q.Lawful Paired) (hbase : base.map (Token.narrow w) = base) {q : π}
    (h : Matched Q Paired w base o (Q.rx s) ((Q.tokens s).map (Token.narrow w)) q) :
    Alike Q Paired w base o (Q.narrow w s) (Q.narrow w (Q.set s q base)) := by
  refine ⟨q, ?_, ?_⟩
  · rw [Reader.narrow, Reader.narrow, hQ.rx_set, hQ.tokens_set, hQ.set_set, hQ.set_set, hbase]
  · rwa [Reader.narrow, hQ.rx_set, hQ.tokens_set]

/-- **Lockstep.** Every step that is not a call of the consumer is the same in the two runs. -/
theorem Alike.step (hQ : Q.Lawful Paired) (hbase : base.map (Token.narrow w) = base) {a : α}
    (hstart : ∀ mode, a ≠ Q.start mode) (hredeem : ∀ t, a ≠ Q.redeem t)
    (h : Alike Q Paired w base o s₁ s₂) (hstep : (Q.narrowSystem w).step s₁ a = some t₁) :
    ∃ t₂, (Q.narrowSystem w).step s₂ a = some t₂ ∧
      Alike Q Paired w base (o.or (Q.seen s₁ a)) t₁ t₂ := by
  obtain ⟨q, rfl, hM⟩ := h
  obtain ⟨u, hu, rfl⟩ := Option.map_eq_some_iff.mp hstep
  suffices hraw : ∃ q', Q.system.step (Q.set s₁ q base) a = some (Q.set u q' base) ∧
      Matched Q Paired w base (o.or (Q.seen s₁ a)) (Q.rx u) ((Q.tokens u).map (Token.narrow w))
        q' by
    obtain ⟨q', hq', hM'⟩ := hraw
    exact ⟨_, Option.map_eq_some_iff.mpr ⟨_, hq', rfl⟩, alike_narrow hQ hbase hM'⟩
  by_cases ha : a = Q.goRx
  · subst ha
    generalize hrx : Q.rx s₁ = p at hM
    generalize htokens : Q.tokens s₁ = tokens at hM
    cases hM with
    | going hpaired =>
      rw [← hrx] at hpaired
      rcases hQ.goes o s₁ q u hpaired hu with
        ⟨q', hpaired', htok, hq'⟩ | ⟨tail, tok, hseen, hholds, hidle, htok, hq'⟩
      · rw [htokens] at htok hq'
        refine ⟨q', hq', ?_⟩
        rw [htok, hbase]
        exact .going hpaired'
      · rw [htokens] at htok hq'
        refine ⟨_, hq', ?_⟩
        rw [hseen, hidle, htok, List.map_cons, hbase]
        exact .found hholds
    | found hholds =>
      rw [hQ.rest s₁ hrx] at hu
      cases hu
  · obtain ⟨hrx, htokens, hseen, hset⟩ := hQ.other s₁ a u hstart hredeem ha hu
    refine ⟨q, hset q base, ?_⟩
    rw [hrx, htokens, hseen, Option.or_none, hM.narrow hbase]
    exact hM

/-- Tokens are narrow in every run. -/
theorem narrow_tokens (hQ : Q.Lawful Paired) (hinit : ∀ s, Q.system.init s → Q.tokens s = [])
    (h : Reachable (Q.narrowSystem w) s) : (Q.tokens s).map (Token.narrow w) = Q.tokens s := by
  refine h.invariant (P := fun s => (Q.tokens s).map (Token.narrow w) = Q.tokens s) ?_ ?_
  · intro s hs
    rw [hinit s hs]
    rfl
  · intro s a t _ _ hstep
    obtain ⟨u, _, rfl⟩ := Option.map_eq_some_iff.mp hstep
    rw [Reader.narrow, hQ.tokens_set]
    exact map_narrow_narrow _

/-- `start_read` has returned a token: `pop` has found the message, and the tail is known. -/
theorem Alike.found {t : Token} (h : Alike Q Paired w base o s₁ s₂) (ht : Q.tokens s₁ = t :: base) :
    ∃ tail t', o = some tail ∧ t'.Holds tail ∧ t = t'.narrow w ∧ Q.rx s₁ = Q.idle ∧
      s₂ = Q.set s₁ (Q.read t') base := by
  obtain ⟨q, rfl, hM⟩ := h
  generalize hrx : Q.rx s₁ = p at hM
  rw [ht] at hM
  generalize htokens : t :: base = tokens at hM
  cases hM with
  | going _ => exact absurd htokens (List.cons_ne_self _ _)
  | found hholds => exact ⟨_, _, rfl, hholds, (List.cons.inj htokens).1, rfl, rfl⟩

/-- **Redeeming equals popping exactly if the word fits.** -/
theorem equals_iff (hQ : Q.Lawful Paired) (hw : w = 32 ∨ w = 64)
    (hbase : base.map (Token.narrow w) = base) {tail : Nat} {t' : Token} (hholds : t'.Holds tail)
    (hrx : Q.rx s₁ = Q.idle) (htokens : Q.tokens s₁ = t'.narrow w :: base) :
    Q.Equals w s₁ (t'.narrow w) (Q.set s₁ (Q.read t') base) ↔ w = 64 ∨ tail = 0 := by
  rw [← hholds.stamp_narrow_eq hw]
  have hredeem : (Q.narrowSystem w).step s₁ (Q.redeem (t'.narrow w)) =
      some (Q.set s₁ (Q.read (t'.narrow w)) base) := by
    refine Option.map_eq_some_iff.mpr
      ⟨_, hQ.redeem s₁ _ hrx (htokens ▸ List.mem_cons_self ..), ?_⟩
    rw [Reader.narrow, hQ.rx_set, hQ.tokens_set, hQ.set_set, htokens, List.erase_cons_head, hbase]
  have hlater (later : List α) : replay (Q.narrowSystem w) s₁ (Q.redeem (t'.narrow w) :: later) =
      replay (Q.narrowSystem w) (Q.set s₁ (Q.read (t'.narrow w)) base) later := by
    rw [replay, hredeem, Option.bind_some]
  obtain ⟨v₁, hv₁, hrecv₁, -⟩ := hQ.take w s₁ (t'.narrow w) base
  obtain ⟨v₂, hv₂, hrecv₂, -⟩ := hQ.take w s₁ t' base
  constructor
  · rintro ⟨u₁, u₂, hu₁, hu₂, -, hrecv, -⟩
    rw [hlater, hv₁] at hu₁
    rw [hv₂] at hu₂
    cases hu₁
    cases hu₂
    rw [← hrecv₁, ← hrecv₂, hrecv]
  · intro hfits
    have hsame : t'.narrow w = t' := by
      rw [Token.narrow, show t'.stamp % 2 ^ w = t'.stamp from hfits]
    rw [hsame] at hlater ⊢
    exact ⟨v₂, v₂, (hlater _).trans hv₂, hv₂, rfl, rfl, hlater⟩

/-- The laws decide when redeeming is popping. -/
theorem Reader.Lawful.redeemIsPop (hQ : Q.Lawful Paired) (hw : w = 32 ∨ w = 64)
    (hinit : ∀ s, Q.system.init s → Q.tokens s = []) (hs : Reachable (Q.narrowSystem w) s) :
    RedeemIsPop Q w s := by
  have hbase := narrow_tokens hQ hinit hs
  have hload (mode : Mode) (hidle : Q.rx s = Q.idle) : (Q.narrowSystem w).step s (Q.start mode) =
      some (Q.set s (Q.load mode) (Q.tokens s)) := by
    refine Option.map_eq_some_iff.mpr ⟨_, (hQ.start s mode _).mpr ⟨hidle, rfl⟩, ?_⟩
    rw [Reader.narrow, hQ.rx_set, hQ.tokens_set, hQ.set_set, hbase]
  intro acts s₁ t hacts hrun ht
  obtain ⟨u₁, hu₁, hrest⟩ := Option.bind_eq_some_iff.mp hrun
  obtain ⟨v, hv, -⟩ := Option.map_eq_some_iff.mp hu₁
  have hidle := ((hQ.start s .select v).mp hv).1
  obtain rfl : Q.set s (Q.load .select) (Q.tokens s) = u₁ :=
    Option.some.inj ((hload .select hidle).symm.trans hu₁)
  have hR : Alike Q Paired w (Q.tokens s) none (Q.set s (Q.load .select) (Q.tokens s))
      (Q.set s (Q.load .pop) (Q.tokens s)) := by
    refine ⟨Q.load .pop, (hQ.set_set ..).symm, ?_⟩
    rw [hQ.rx_set, hQ.tokens_set]
    exact .going hQ.paired
  obtain ⟨s₂, hs₂, hend⟩ := replay_lockstep Q.seen
    (fun a ha o s₁ s₂ t₁ h hstep => h.step hQ hbase (hacts a ha).1 (hacts a ha).2 hstep) hR hrest
  obtain ⟨tail, t', hseen, hholds, rfl, hrx, rfl⟩ := hend.found ht
  refine ⟨tail, _, ?_, ?_, equals_iff hQ hw hbase hholds hrx ht⟩
  · rw [firstSeen, hQ.seen_start, Option.none_or, hu₁, Option.bind_some]
    exact hseen
  · rw [replay, hload .pop hidle, Option.bind_some, hs₂]

/-- Both halves of the token fit. -/
theorem readToken_holds {r : Ring} {head tail : Nat} (hword : r.word = 32) (hhead : head < 2 ^ 32)
    (htail : tail < 2 ^ 32) (k : Nat) : (readToken r head tail k).Holds tail := by
  have hnext : r.next head < 2 ^ r.word := Ring.next_lt (by rwa [hword])
  exact ⟨r.next head, htail, by rwa [hword] at hnext, by rw [readToken, hword]⟩

end Lockstep

/-! ## `ArrayQueueSpsc` -/

namespace Spsc

variable {V : Type} {r : Ring} {s : St V}

/-- The same point of `start_read` and of `pop`. -/
inductive Paired : Option Nat → RxPc V → RxPc V → Prop
  | load : Paired none (.load .select) (.load .pop)
  | loadTail (head : Nat) (hlt : head < 2 ^ 32) :
      Paired none (.loadTail .select head) (.loadTail .pop head)
  | missed : Paired none .idle .idle

/-- The producer does not look at the consumer or its tokens. -/
theorem stepTx_set (rx : RxPc V) (tokens : List Token) :
    stepTx r { s with rx := rx, tokens := tokens } =
      (stepTx r s).map fun t => { t with rx := rx, tokens := tokens } := by
  cases hpc : s.tx with
  | idle | write | store => simp [stepTx, hpc]
  | load | loadHead =>
    simp only [stepTx, hpc]
    split_ifs <;> rfl

/-- `ArrayQueueSpsc` meets the laws. -/
theorem reader_lawful (hword : r.word = 32) : (reader r : Reader (St V) _ _ V).Lawful Paired where
  rx_set _ _ _ := rfl
  tokens_set _ _ _ := rfl
  set_set _ _ _ _ _ := rfl
  start s mode t := by
    show step r s (.start mode) = some t ↔ s.rx = .idle ∧ { s with rx := .load mode } = t
    cases hrx : s.rx <;> simp [step, hrx]
  seen_start _ _ := rfl
  paired := .load
  redeem s t hrx ht := by
    have hidle : s.rx = .idle := hrx
    have hmem : t ∈ s.tokens := ht
    show step r s (.redeem t) = _
    simp only [step, hidle, hmem, and_self, if_true]
    rfl
  other s a t hstart hredeem hgo hstep := by
    cases a with
    | start mode => exact absurd rfl (hstart mode)
    | redeem t => exact absurd rfl (hredeem t)
    | goRx => exact absurd rfl hgo
    | push v =>
      change step r s (.push v) = some t at hstep
      simp only [step] at hstep
      split_ifs at hstep with hidle
      cases hstep
      exact ⟨rfl, rfl, rfl, fun p l => if_pos hidle⟩
    | goTx =>
      change stepTx r s = some t at hstep
      obtain ⟨hrx, htokens⟩ := rx_of_stepTx hstep
      refine ⟨hrx, htokens, rfl, fun p l => ?_⟩
      show stepTx r { s with rx := p, tokens := l } = _
      rw [stepTx_set, hstep]
      rfl
  rest s hrx := by
    have hidle : s.rx = .idle := hrx
    show stepRx r s = none
    simp [stepRx, hidle]
  goes o s q t hpaired hstep := by
    have hlow (word : Nat) : low r.word word < 2 ^ 32 := hword ▸ low_lt ..
    have hhigh (word : Nat) : high r.word word < 2 ^ 32 := hword ▸ high_lt ..
    change stepRx r s = some t at hstep
    show (∃ q', Paired (o.or (s.seen r .goRx)) t.rx q' ∧ t.tokens = s.tokens ∧
      stepRx r { s with rx := q } = some { t with rx := q', tokens := s.tokens }) ∨
      ∃ tail tok, o.or (s.seen r .goRx) = some tail ∧ tok.Holds tail ∧ t.rx = .idle ∧
        t.tokens = tok :: s.tokens ∧
        stepRx r { s with rx := q } = some { t with rx := .read tok, tokens := s.tokens }
    generalize hrx : (reader r).rx s = p at hpaired
    change s.rx = p at hrx
    cases hpaired with
    | load =>
      simp only [stepRx, hrx, reduceCtorEq, if_false] at hstep
      split_ifs at hstep with hempty
      · -- the copy says empty
        cases hstep
        refine .inl ⟨.loadTail .pop (low r.word s.recv), ?_, rfl, ?_⟩
        · simp only [St.seen, hrx, if_pos hempty, Option.or_none]
          exact .loadTail _ (hlow _)
        · exact (if_pos hempty).trans (if_neg (by rintro ⟨⟩))
      · cases hstep
        refine .inr ⟨high r.word s.recv, _, ?_, readToken_holds hword (hlow _) (hhigh _) s.claimed,
          rfl, rfl, if_neg hempty⟩
        simp only [St.seen, hrx, if_neg hempty, Option.none_or]
    | loadTail head hlt =>
      simp only [stepRx, hrx] at hstep
      split_ifs at hstep with hempty
      · cases hstep
        refine .inl ⟨.idle, ?_, rfl, if_pos hempty⟩
        simp only [St.seen, hrx, if_pos hempty, Option.or_none]
        exact .missed
      · cases hstep
        refine .inr ⟨low r.word s.sender, _, ?_, readToken_holds hword hlt (hlow _) s.claimed, rfl,
          rfl, if_neg hempty⟩
        simp only [St.seen, hrx, if_neg hempty, Option.none_or]
    | missed => simp [stepRx, hrx] at hstep
  take _ _ _ _ := ⟨_, rfl, rfl, rfl⟩

end Spsc

/-! ## `ArrayQueueMpsc` -/

namespace Mpsc

variable {ι V : Type} [DecidableEq ι] {r : Ring} {s : St ι V} {i : ι} {choice : Bool}

/-- The same point of `start_read` and of `pop`. -/
inductive Paired : Option Nat → RxPc V → RxPc V → Prop
  | load : Paired none (.load .select) (.load .pop)
  | loadTail (head : Nat) (hlt : head < 2 ^ 32) :
      Paired none (.loadTail .select head) (.loadTail .pop head)
  | missed : Paired none .idle .idle
  | wait {tail : Nat} {t : Token} (target : Nat) (holds : t.Holds tail) :
      Paired (some tail) (.wait .select t target) (.wait .pop t target)

theorem tryPush_set (rx : RxPc V) (tokens : List Token) (v : V) (one : Bool) :
    St.tryPush r { s with rx := rx, tokens := tokens } i v one =
      { s.tryPush r i v one with rx := rx, tokens := tokens } := by
  rw [St.tryPush, St.tryPush]
  split_ifs <;> rfl

/-- A producer does not look at the consumer or its tokens. -/
theorem stepTx_set (rx : RxPc V) (tokens : List Token) :
    stepTx r { s with rx := rx, tokens := tokens } i choice =
      (stepTx r s i choice).map fun t => { t with rx := rx, tokens := tokens } := by
  cases hpc : s.tx i with
  | idle => simp [stepTx, hpc]
  | load v one => simp [stepTx, hpc, tryPush_set]
  | loadHead v one senderVal k =>
    simp only [stepTx, hpc]
    split_ifs <;> rfl
  | cas v one senderVal headCached k =>
    simp only [stepTx, hpc, tryPush_set]
    split_ifs <;> rfl
  | write | publish => simp only [stepTx, hpc]; rfl

/-- `ArrayQueueMpsc` meets the laws. -/
theorem reader_lawful (hword : r.word = 32) : (reader r : Reader (St ι V) _ _ V).Lawful Paired where
  rx_set _ _ _ := rfl
  tokens_set _ _ _ := rfl
  set_set _ _ _ _ _ := rfl
  start s mode t := by
    show step r s (.start mode) = some t ↔ s.rx = .idle ∧ { s with rx := .load mode } = t
    cases hrx : s.rx <;> simp [step, hrx]
  seen_start _ _ := rfl
  paired := .load
  redeem s t hrx ht := by
    have hidle : s.rx = .idle := hrx
    have hmem : t ∈ s.tokens := ht
    show step r s (.redeem t) = _
    simp only [step, hidle, hmem, and_self, if_true]
    rfl
  other s a t hstart hredeem hgo hstep := by
    cases a with
    | start mode => exact absurd rfl (hstart mode)
    | redeem t => exact absurd rfl (hredeem t)
    | goRx => exact absurd rfl hgo
    | push i v one =>
      change step r s (.push i v one) = some t at hstep
      simp only [step] at hstep
      split_ifs at hstep with hidle
      cases hstep
      exact ⟨rfl, rfl, rfl, fun p l => if_pos hidle⟩
    | goTx i choice =>
      change stepTx r s i choice = some t at hstep
      have hkeep : t.rx = s.rx ∧ t.tokens = s.tokens := by
        cases txStep_of_stepTx hstep <;> exact ⟨rfl, rfl⟩
      refine ⟨hkeep.1, hkeep.2, rfl, fun p l => ?_⟩
      show stepTx r { s with rx := p, tokens := l } i choice = _
      rw [stepTx_set, hstep]
      rfl
  rest s hrx := by
    have hidle : s.rx = .idle := hrx
    show stepRx r s = none
    simp [stepRx, hidle]
  goes o s q t hpaired hstep := by
    have hlow (word : Nat) : low r.word word < 2 ^ 32 := hword ▸ low_lt ..
    have hhigh (word : Nat) : high r.word word < 2 ^ 32 := hword ▸ high_lt ..
    change stepRx r s = some t at hstep
    show (∃ q', Paired (o.or (s.seen r .goRx)) t.rx q' ∧ t.tokens = s.tokens ∧
      stepRx r { s with rx := q } = some { t with rx := q', tokens := s.tokens }) ∨
      ∃ tail tok, o.or (s.seen r .goRx) = some tail ∧ tok.Holds tail ∧ t.rx = .idle ∧
        t.tokens = tok :: s.tokens ∧
        stepRx r { s with rx := q } = some { t with rx := .read tok, tokens := s.tokens }
    generalize hrx : (reader r).rx s = p at hpaired
    change s.rx = p at hrx
    cases hpaired with
    | load =>
      simp only [stepRx, hrx, reduceCtorEq, if_false] at hstep
      split_ifs at hstep with hempty
      · -- the copy says empty
        cases hstep
        refine .inl ⟨.loadTail .pop (low r.word s.recv), ?_, rfl, ?_⟩
        · simp only [St.seen, hrx, if_pos hempty, Option.or_none]
          exact .loadTail _ (hlow _)
        · exact (if_pos hempty).trans (if_neg (by rintro ⟨⟩))
      · cases hstep
        refine .inl ⟨_, ?_, rfl, if_neg hempty⟩
        simp only [St.seen, hrx, if_neg hempty, Option.none_or]
        exact .wait _ (readToken_holds hword (hlow _) (hhigh _) s.claimed)
    | loadTail head hlt =>
      simp only [stepRx, hrx] at hstep
      split_ifs at hstep with hempty
      · cases hstep
        refine .inl ⟨.idle, ?_, rfl, if_pos hempty⟩
        simp only [St.seen, hrx, if_pos hempty, Option.or_none]
        exact .missed
      · cases hstep
        refine .inl ⟨_, ?_, rfl, if_neg hempty⟩
        simp only [St.seen, hrx, if_neg hempty, Option.none_or]
        exact .wait _ (readToken_holds hword hlt (hlow _) s.claimed)
    | missed => simp [stepRx, hrx] at hstep
    | wait target hholds =>
      simp only [stepRx, hrx, if_true] at hstep
      split_ifs at hstep with hstamp
      · cases hstep
        exact .inr ⟨_, _, rfl, hholds, rfl, rfl, (if_pos hstamp).trans (if_neg (by rintro ⟨⟩))⟩
      · cases hstep
        refine .inl ⟨_, ?_, rfl, if_neg hstamp⟩
        rw [hrx]
        exact .wait target hholds
  take _ _ _ _ := ⟨_, rfl, rfl, rfl⟩

end Mpsc

/-! ## Both queues -/

/-- **Redeeming a token equals popping exactly if the tail survives**, in every reachable state of
both queues: a `usize` has 64 bits, or the tail that `start_read` finds in the words it loads is
zero. -/
theorem redeem_is_pop {ι V : Type} [DecidableEq ι] (w : Nat) (hw : w = 32 ∨ w = 64) (cap : Nat)
    (hpos : 0 < cap) (hlt : cap < 2 ^ 31) :
    (∀ s : Spsc.St V, Reachable (Spsc.narrowSystem w (ring cap hpos hlt)) s →
      RedeemIsPop (Spsc.reader (ring cap hpos hlt)) w s) ∧
    ∀ s : Mpsc.St ι V, Reachable (Mpsc.narrowSystem w (ring cap hpos hlt)) s →
      RedeemIsPop (Mpsc.reader (ring cap hpos hlt)) w s := by
  refine ⟨fun s hs => ?_, fun s hs => ?_⟩
  · exact (Spsc.reader_lawful rfl).redeemIsPop hw (by rintro _ rfl; rfl) hs
  · exact (Mpsc.reader_lawful rfl).redeemIsPop hw (by rintro _ rfl; rfl) hs

/-- With 64 bits: one message is pushed, and `start_read` finds the tail 1 in `sender` and returns
its token. -/
theorem redeem_is_pop_wide :
    (64 = 32 ∨ 64 = 64) ∧ 0 < 2 ∧ 2 < 2 ^ 31 ∧
      Reachable (Spsc.narrowSystem (V := Nat) 64 ringTwo) Spsc.St.new ∧
      RedeemIsPop (Spsc.reader ringTwo) 64 (Spsc.St.new (V := Nat)) ∧
      ((replay (Spsc.narrowSystem (V := Nat) 64 ringTwo) Spsc.St.new
        [.start .select, .push 7, .goTx, .goTx, .goTx, .goRx, .goRx]).map fun s => s.tokens) =
          some [⟨0, 2 ^ 32 + 1, 0⟩] ∧
      firstSeen (Spsc.narrowSystem (V := Nat) 64 ringTwo) (Spsc.St.seen ringTwo) Spsc.St.new
        [.start .select, .push 7, .goTx, .goTx, .goTx, .goRx, .goRx] = some 1 :=
  ⟨.inr rfl, by decide, by decide, .init rfl,
    (redeem_is_pop (ι := Unit) 64 (.inr rfl) 2 (by decide) (by decide)).1 _ (.init rfl),
    by decide +kernel, by decide +kernel⟩

/-- What is left in `recv`, what was received and how often nothing was found, with 32 bits. -/
def Spsc.outcome (acts : List (Spsc.Act Nat)) : Option (Nat × List (Nat × Option Nat) × List Nat) :=
  (replay (Spsc.narrowSystem 32 ringTwo) Spsc.St.new acts).map fun s =>
    (s.recv, s.returned, s.missed)

/-- The same, with what the consumer is doing. -/
def Mpsc.outcome (acts : List (Mpsc.Act Unit Nat)) :
    Option (Nat × List (Nat × Option Nat) × List Nat × Mpsc.RxPc Nat) :=
  (replay (Mpsc.narrowSystem 32 ringTwo) Mpsc.St.new acts).map
    fun s => (s.recv, s.returned, s.missed, s.rx)

/-- One message is pushed and received by `start_read` and `read`. -/
def Spsc.byToken : List (Spsc.Act Nat) :=
  [.push 7, .goTx, .goTx, .goTx, .start .select, .goRx, .goRx, .redeem ⟨0, 1, 0⟩, .goRx, .goRx]

/-- One message is pushed and received by `pop`. -/
def Spsc.byPop : List (Spsc.Act Nat) :=
  [.push 7, .goTx, .goTx, .goTx, .start .pop, .goRx, .goRx, .goRx, .goRx]

/-- A message received by a token. -/
def Mpsc.byToken : List (Mpsc.Act Unit Nat) :=
  [.push () 7 false, .goTx () false, .goTx () false, .goTx () false, .goTx () false,
    .start .select, .goRx, .goRx, .goRx, .redeem ⟨0, 1, 0⟩, .goRx, .goRx]

/-- The same message received by `pop`. -/
def Mpsc.byPop : List (Mpsc.Act Unit Nat) :=
  [.push () 7 false, .goTx () false, .goTx () false, .goTx () false, .goTx () false,
    .start .pop, .goRx, .goRx, .goRx, .goRx, .goRx]

/-- With 32 bits the cached tail is lost: after the same message `recv` differs. The next `pop`
finds the queue not empty; it reads a slot that was never written in `ArrayQueueSpsc`, and waits for
the stamp of that slot in `ArrayQueueMpsc`. After a `pop` it returns `None`. -/
theorem redeem_loses_tail :
    Spsc.outcome Spsc.byToken = some (1, [(0, some 7)], []) ∧
      Spsc.outcome Spsc.byPop = some (2 ^ 32 + 1, [(0, some 7)], []) ∧
      Spsc.outcome (Spsc.byToken ++ [.start .pop, .goRx, .goRx, .goRx]) =
        some (4, [(0, some 7), (1, none)], []) ∧
      Spsc.outcome (Spsc.byPop ++ [.start .pop, .goRx, .goRx]) =
        some (2 ^ 32 + 1, [(0, some 7)], [0]) ∧
      Mpsc.outcome Mpsc.byToken = some (1, [(0, some 7)], [], .idle) ∧
      Mpsc.outcome Mpsc.byPop = some (2 ^ 32 + 1, [(0, some 7)], [], .idle) ∧
      Mpsc.outcome (Mpsc.byToken ++ [.start .pop, .goRx, .goRx]) =
        some (1, [(0, some 7)], [], .wait .pop ⟨1, 4, 1⟩ 2) ∧
      Mpsc.outcome (Mpsc.byPop ++ [.start .pop, .goRx, .goRx]) =
        some (2 ^ 32 + 1, [(0, some 7)], [0], .idle) := by
  refine ⟨?_, ?_, ?_, ?_, ?_, ?_, ?_, ?_⟩ <;> decide +kernel

end Crossfire.ArrayQueue
