import Crossfire.ArrayQueue.Spsc
import Crossfire.ArrayQueue.MpscRefines

/-!
# Tokens whose stamp is a `usize`

The token of `start_read` carries the word that `read` stores to `recv` in its field `stamp`. The
word is a `u64`, the field a `usize`: `Token::new(slot, packed_recv as usize)` keeps the low `w`
bits of it. A `Reader` is what `ArrayQueueSpsc` and `ArrayQueueMpsc` have in common, and its
`narrowSystem` is the queue with tokens of `w` bits.

Where a `usize` holds both halves of the word nothing is lost. If tokens are issued only then
(`tokenFits`), the runs are those of the queue with whole words (`Spsc.reach_of_narrow`,
`Mpsc.reach_of_narrow`).
-/

set_option autoImplicit false

namespace Crossfire.ArrayQueue

open Lib.Interleaving Lib.Packed Lib.Lap

/-- `packed_recv as usize`. -/
def Token.narrow (w : Nat) (t : Token) : Token := { t with stamp := t.stamp % 2 ^ w }

/-- A queue with one consumer, whose program counters are of type `π`. -/
structure Reader (σ α π V : Type) where
  system : System σ α
  rx : σ → π
  tokens : σ → List Token
  /-- The same state, with another program counter of the consumer and other tokens. -/
  set : σ → π → List Token → σ
  idle : π
  /-- The consumer has called `pop`, `pop_cached` or `start_read`. -/
  load : Mode → π
  /-- The consumer has found a message, by `pop`, or redeems its token. -/
  read : Token → π
  start : Mode → α
  redeem : Token → α
  goRx : α
  recv : σ → Nat
  value : σ → Nat → Option V
  returned : σ → List (Nat × Option V)
  /-- The tail in the word that a step of the consumer loads, if it shows that there is a message:
  the tail half of `recv` if it is not the head, else the tail in `sender` if it is not the head. -/
  seen : σ → α → Option Nat

section Narrow

variable {σ α π V : Type} (Q : Reader σ α π V) {w : Nat} {s : σ} {t : Token}

/-- The stamps of the tokens become narrow. -/
def Reader.narrow (w : Nat) (s : σ) : σ := Q.set s (Q.rx s) ((Q.tokens s).map (Token.narrow w))

/-- The queue, with tokens whose stamp is a `usize` of `w` bits. -/
def Reader.narrowSystem (w : Nat) : System σ α where
  init := Q.system.init
  step s a := (Q.system.step s a).map (Q.narrow w)

theorem Token.narrow_eq (h : t.stamp < 2 ^ w) : t.narrow w = t := by
  simp [Token.narrow, Nat.mod_eq_of_lt h]

variable {Q}

/-- If all stamps fit, the runs with narrow tokens are runs of the queue. -/
theorem Reader.reach_of_narrow {ok : σ → α → Prop} (hself : ∀ s, Q.set s (Q.rx s) (Q.tokens s) = s)
    (hfit : ∀ s, Reach Q.system ok s → ∀ t ∈ Q.tokens s, t.stamp < 2 ^ w)
    (h : Reach (Q.narrowSystem w) ok s) : Reach Q.system ok s := by
  induction h with
  | init hs => exact .init hs
  | step a _ hok hstep ih =>
    obtain ⟨u, hu, rfl⟩ := Option.map_eq_some_iff.mp hstep
    have hreach : Reach Q.system ok u := .step a ih hok hu
    have hsame : (Q.tokens u).map (Token.narrow w) = Q.tokens u :=
      (List.map_congr_left fun t ht => Token.narrow_eq (hfit u hreach t ht)).trans (List.map_id _)
    rwa [Reader.narrow, hsame, hself]

/-- A token for the first unpopped message fits if both halves of the word do. -/
theorem Token.Fresh.stamp_lt {r : Ring} {tc claimed pushed : Nat}
    (h : t.Fresh r tc claimed pushed) (hw : 2 * r.word ≤ w) : t.stamp < 2 ^ w := by
  obtain ⟨n, hstamp, _⟩ := h.stamp
  rw [hstamp]
  exact (pack_lt (Ring.enc_lt _) (Ring.enc_lt _)).trans_le (Nat.pow_le_pow_right (by decide) hw)

end Narrow

/-! ## `ArrayQueueSpsc` -/

namespace Spsc

section Machine

variable {V : Type} {w : Nat} {r : Ring} {s : St V}

/-- The tail that a step of the consumer finds. -/
def St.seen (r : Ring) (s : St V) : Act V → Option Nat
  | .goRx =>
    match s.rx with
    | .load _ =>
      if high r.word s.recv = low r.word s.recv then none else some (high r.word s.recv)
    | .loadTail _ head => if head = low r.word s.sender then none else some (low r.word s.sender)
    | .idle | .read _ | .store _ _ => none
  | .push _ | .start _ | .redeem _ | .goTx => none

/-- The consumer of `ArrayQueueSpsc`. -/
def reader (r : Ring) : Reader (St V) (Act V) (RxPc V) V where
  system := system r
  rx := St.rx
  tokens := St.tokens
  set s rx tokens := { s with rx := rx, tokens := tokens }
  idle := .idle
  load := .load
  read := .read
  start := .start
  redeem := .redeem
  goRx := .goRx
  recv := St.recv
  value := St.slot
  returned := St.returned
  seen := St.seen r

/-- `ArrayQueueSpsc`, with a `usize` of `w` bits. -/
def narrowSystem (w : Nat) (r : Ring) : System (St V) (Act V) := (reader r).narrowSystem w

/-- Tokens are issued only where a `usize` holds both halves of a word. -/
def tokenFits (w : Nat) (r : Ring) (_ : St V) : Act V → Prop
  | .start mode => mode = .select → 2 * r.word ≤ w
  | .push _ | .redeem _ | .goTx | .goRx => True

/-- No token is outstanding when the consumer starts to receive or to select, and tokens fit. -/
def selectOk (w : Nat) (r : Ring) (s : St V) (a : Act V) : Prop := tokenOk s a ∧ tokenFits w r s a

instance (w : Nat) (r : Ring) (s : St V) : (a : Act V) → Decidable (selectOk w r s a)
  | .start mode => inferInstanceAs (Decidable (s.tokens = [] ∧ (mode = .select → 2 * r.word ≤ w)))
  | .push _ | .redeem _ | .goTx | .goRx => .isTrue ⟨trivial, trivial⟩

/-- The words of the tokens fit. -/
theorem stamp_lt (h : Reach (system r) (selectOk w r) s) : ∀ t ∈ s.tokens, t.stamp < 2 ^ w := by
  intro t ht
  by_cases hw : 2 * r.word ≤ w
  · obtain ⟨hc, tc, hinv⟩ := inv_of_reach (h.mono fun _ _ hok => hok.1)
    exact (hinv.tokens.2 t ht).stamp_lt hw
  · -- no token was ever issued
    have hpop : Reach (system r) popOnly s := h.mono fun s a hok => by
      cases a with
      | start mode => exact fun hmode => hw (hok.2 hmode)
      | push | redeem | goTx | goRx => exact trivial
    obtain ⟨_, _, hnil⟩ := inv_of_popOnly hpop
    rw [hnil] at ht
    cases ht

/-- **With tokens that fit, the width of a `usize` does not matter.** -/
theorem reach_of_narrow (h : Reach (narrowSystem w r) (selectOk w r) s) :
    Reach (system r) tokenOk s :=
  (Reader.reach_of_narrow (Q := reader r) (fun _ => rfl) (fun _ => stamp_lt) h).mono
    fun _ _ hok => hok.1

end Machine

end Spsc

/-! ## `ArrayQueueMpsc` -/

namespace Mpsc

section Machine

variable {ι V : Type} {w lap : Nat} {r : Ring} {s : St ι V}

/-- The tail that a step of the consumer finds. -/
def St.seen (r : Ring) (s : St ι V) : Act ι V → Option Nat
  | .goRx =>
    match s.rx with
    | .load _ =>
      if high r.word s.recv = low r.word s.recv then none else some (high r.word s.recv)
    | .loadTail _ head => if head = low r.word s.sender then none else some (low r.word s.sender)
    | .idle | .wait _ _ _ | .read _ | .store _ _ => none
  | .push _ _ _ | .start _ | .redeem _ | .goTx _ _ => none

/-- Tokens are issued only where a `usize` holds both halves of a word. -/
def tokenFits (w : Nat) (r : Ring) (_ : St ι V) : Act ι V → Prop
  | .start mode => mode = .select → 2 * r.word ≤ w
  | .push _ _ _ | .redeem _ | .goTx _ _ | .goRx => True

/-- No push call is suspended across a wrap, no token is outstanding when the consumer starts to
receive or to select, and tokens fit. -/
def selectOk (w : Nat) (r : Ring) (s : St ι V) (a : Act ι V) : Prop :=
  (wrapOk r 0 s a ∧ tokenOk s a) ∧ tokenFits w r s a

variable [DecidableEq ι]

/-- The consumer of `ArrayQueueMpsc`. -/
def reader (r : Ring) : Reader (St ι V) (Act ι V) (RxPc V) V where
  system := system r
  rx := St.rx
  tokens := St.tokens
  set s rx tokens := { s with rx := rx, tokens := tokens }
  idle := .idle
  load := .load
  read := .read
  start := .start
  redeem := .redeem
  goRx := .goRx
  recv := St.recv
  value := St.value
  returned := St.returned
  seen := St.seen r

/-- `ArrayQueueMpsc`, with a `usize` of `w` bits. -/
def narrowSystem (w : Nat) (r : Ring) : System (St ι V) (Act ι V) := (reader r).narrowSystem w

/-- The words of the tokens fit. -/
theorem stamp_lt (h : Reach (system r) (selectOk w r) s) : ∀ t ∈ s.tokens, t.stamp < 2 ^ w := by
  intro t ht
  by_cases hw : 2 * r.word ≤ w
  · obtain ⟨hc, tc, hinv⟩ := inv_of_reach (h.mono fun _ _ hok => hok.1)
    exact (hinv.tokens.2 t ht).1.stamp_lt hw
  · -- no token was ever issued
    have hpop : Reach (system r) (fun s a => wrapOk r 0 s a ∧ popOnly s a) s :=
      h.mono fun s a hok => by
        refine ⟨hok.1.1, ?_⟩
        cases a with
        | start mode => exact fun hmode => hw (hok.2 hmode)
        | push | redeem | goTx | goRx => exact trivial
    obtain ⟨_, _, hnil⟩ := inv_of_popOnly hpop
    rw [hnil] at ht
    cases ht

/-- **With tokens that fit, the width of a `usize` does not matter.** -/
theorem reach_of_narrow (h : Reach (narrowSystem w r) (selectOk w r) s) :
    Reach (system r) (fun s a => wrapOk r 0 s a ∧ tokenOk s a) s :=
  (Reader.reach_of_narrow (Q := reader r) (fun _ => rfl) (fun _ => stamp_lt) h).mono
    fun _ _ hok => hok.1

end Machine

end Mpsc

end Crossfire.ArrayQueue
