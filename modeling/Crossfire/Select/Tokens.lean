import Crossfire.One.Spsc
import Crossfire.One.Mpsc
import Crossfire.One.Mpmc
import Crossfire.ArrayQueue.Narrow
import Crossfire.ArrayQueue.MpmcInvariant
import Crossfire.SegQueue.Delivery

/-!
# Tokens of `select`

`Select::select` and `try_select` return a token for a message, and `read_select` redeems it. The
seven flavors that implement `FlavorSelect` do so in two ways. `One`, `Array` and `List` claim the
message when the token is issued. `OneMpsc`, `OneSpsc`, `ArrayMpsc` and `ArraySpsc` only look at the
head then, and move it when the token is redeemed. The tokens of the last two carry a word of two
halves in a `usize` (`Narrow`).

`tokens_deliver` says that in every flavor each message is returned at most once, and by the call or
the token of its position, if the runs of the second kind start no receive and no select while a
token is outstanding, and `ArrayMpsc` and `ArraySpsc` issue tokens only where a `usize` holds the
word. With two tokens outstanding each of these four returns one message twice (`token_twice`).
-/

set_option autoImplicit false

namespace Crossfire.Select

open Lib.Interleaving
open Lib.Fifo
open Lib.Lap

/-- The flavors that implement `FlavorSelect`; those with a ring have its capacity, and `w` is the
width of a `usize`. -/
inductive Flavor
  | one
  | oneMpsc
  | oneSpsc
  | array (r : Ring)
  | arrayMpsc (w : Nat) (r : Ring)
  | arraySpsc (w : Nat) (r : Ring)
  | list

/-- A queue with its history: the messages pushed, and for each message returned by a receive or for
a token the position it was taken from. -/
structure Queue (V : Type) where
  State : Type
  Action : Type
  system : System State Action
  /-- A condition on the steps of a run. -/
  ok : State → Action → Prop
  pushed : State → List V
  returned : State → List (Nat × Option V)

section Flavors

variable (ι V : Type) [Fintype ι] [DecidableEq ι]

/-- The agents `ι` are the producers, and the consumers of the flavors that have several. -/
def Flavor.queue : Flavor → Queue V
  | .one => ⟨One.Mpmc.St ι V, One.Mpmc.Act ι V, One.Mpmc.system, One.Mpmc.flightOk, (·.pushed),
      (·.returned)⟩
  | .oneMpsc => ⟨One.Mpsc.St ι V, One.Mpsc.Act ι V, One.Mpsc.system, One.Mpsc.tokenOk, (·.pushed),
      (·.returned)⟩
  | .oneSpsc => ⟨One.Spsc.St V, One.Spsc.Act V, One.Spsc.system, One.Spsc.tokenOk, (·.pushed),
      (·.returned)⟩
  | .array r => ⟨ArrayQueue.Mpmc.St ι V, ArrayQueue.Mpmc.Act ι V, ArrayQueue.Mpmc.system r,
      ArrayQueue.Mpmc.wrapOk r 0, (·.pushed), (·.returned)⟩
  | .arrayMpsc w r => ⟨ArrayQueue.Mpsc.St ι V, ArrayQueue.Mpsc.Act ι V,
      ArrayQueue.Mpsc.narrowSystem w r, ArrayQueue.Mpsc.selectOk w r, (·.pushed), (·.returned)⟩
  | .arraySpsc w r => ⟨ArrayQueue.Spsc.St V, ArrayQueue.Spsc.Act V,
      ArrayQueue.Spsc.narrowSystem w r, ArrayQueue.Spsc.selectOk w r, (·.pushed), (·.returned)⟩
  | .list => ⟨SegQueue.St ι V, SegQueue.Act ι V, SegQueue.system, SegQueue.indexOk, (·.pushed),
      (·.returned)⟩

variable {ι V}

/-- **A message is returned at most once, and by the token of its position.** -/
theorem tokens_deliver (f : Flavor) (s : (f.queue ι V).State)
    (h : Reach (f.queue ι V).system (f.queue ι V).ok s) :
    Delivers ((f.queue ι V).pushed s) ((f.queue ι V).returned s) := by
  cases f with
  | one => exact (One.Mpmc.inv_of_reach h).delivers
  | array r => exact (ArrayQueue.Mpmc.inv_of_reach h).delivers
  | list => exact SegQueue.delivers_of_reach h
  | oneMpsc =>
    have hinv := One.Mpsc.inv_of_reach h
    obtain ⟨n, hreturned, hn⟩ := hinv.returned_eq
    show Delivers (One.Mpsc.St.pushed s) (One.Mpsc.St.returned s)
    rw [hreturned]
    refine delivers_handed ?_
    have := hinv.length_le
    rcases hn with hn | ⟨hn, -⟩ <;> omega
  | oneSpsc =>
    have hinv := One.Spsc.inv_of_reach h
    obtain ⟨n, hreturned, hn⟩ := hinv.returned_eq
    show Delivers (One.Spsc.St.pushed s) (One.Spsc.St.returned s)
    rw [hreturned]
    refine delivers_handed ?_
    have := hinv.claimed_le
    rcases hn with hn | ⟨hn, -⟩ <;> omega
  | arrayMpsc w r =>
    obtain ⟨hc, tc, hinv⟩ := ArrayQueue.Mpsc.inv_of_reach (ArrayQueue.Mpsc.reach_of_narrow h)
    show Delivers (ArrayQueue.Mpsc.St.pushed s) (ArrayQueue.Mpsc.St.returned s)
    rw [hinv.returned]
    exact delivers_handed hinv.length_le.1
  | arraySpsc w r =>
    obtain ⟨hc, tc, hinv⟩ := ArrayQueue.Spsc.inv_of_reach (ArrayQueue.Spsc.reach_of_narrow h)
    show Delivers (ArrayQueue.Spsc.St.pushed s) (ArrayQueue.Spsc.St.returned s)
    rw [hinv.returned]
    exact delivers_handed hinv.length_le.1

end Flavors

instance (s : One.Spsc.St Nat) : (a : One.Spsc.Act Nat) → Decidable (One.Spsc.tokenOk s a)
  | .pop | .select => inferInstanceAs (Decidable (s.tokens = []))
  | .push _ | .redeem _ | .goTx | .goRx => .isTrue trivial

/-- A message is pushed, a token is issued for it and redeemed. -/
theorem tokens_deliver_one : ∃ s : (Flavor.oneSpsc.queue Unit Nat).State,
    Reach (Flavor.oneSpsc.queue Unit Nat).system (Flavor.oneSpsc.queue Unit Nat).ok s ∧
      Delivers ((Flavor.oneSpsc.queue Unit Nat).pushed s)
        ((Flavor.oneSpsc.queue Unit Nat).returned s) ∧
      (Flavor.oneSpsc.queue Unit Nat).returned s = [(0, some 7)] := by
  have hnew : Reach (One.Spsc.system (V := Nat)) One.Spsc.tokenOk One.Spsc.St.new := .init rfl
  obtain ⟨s, hs, htest⟩ := hnew.exists_of_run
    [.push 7, .goTx, .goTx, .goTx, .select, .goRx, .redeem ⟨1, 0, 1⟩, .goRx, .goRx]
    (fun s => s.returned = [(0, some 7)]) (by decide +kernel)
  exact ⟨s, hs, tokens_deliver (ι := Unit) .oneSpsc s hs, htest⟩

/-! ## Two tokens for one message -/

/-- Some run returns a message twice. -/
def Flavor.Repeats (f : Flavor) : Prop :=
  ∃ s : (f.queue Unit Nat).State, Reachable (f.queue Unit Nat).system s ∧
    ¬ Delivers ((f.queue Unit Nat).pushed s) ((f.queue Unit Nat).returned s)

theorem not_delivers_twice {V : Type} {pushed : List V} {returned : List (Nat × Option V)}
    {p : Nat × Option V} (h : returned = [p, p]) : ¬ Delivers pushed returned := by
  intro hdelivers
  have honce := hdelivers.once
  simp [h] at honce

/-- A message is pushed, two tokens are issued for it, and both are redeemed, with 64 bits. -/
theorem token_twice : Flavor.oneSpsc.Repeats ∧ Flavor.oneMpsc.Repeats ∧
    (Flavor.arraySpsc 64 ArrayQueue.ringTwo).Repeats ∧
    (Flavor.arrayMpsc 64 ArrayQueue.ringTwo).Repeats := by
  refine ⟨?_, ?_, ?_, ?_⟩
  · have hnew : Reachable (One.Spsc.system (V := Nat)) One.Spsc.St.new := .init rfl
    obtain ⟨s, hs, htest⟩ := hnew.exists_of_run
      [.push 7, .goTx, .goTx, .goTx, .select, .goRx, .select, .goRx, .redeem ⟨1, 0, 1⟩, .goRx,
        .goRx, .redeem ⟨1, 0, 1⟩, .goRx, .goRx]
      (fun s => s.returned = [(0, some 7), (0, some 7)]) (by decide +kernel)
    exact ⟨s, hs, not_delivers_twice htest⟩
  · have hnew : Reachable (One.Mpsc.system (ι := Unit) (V := Nat)) One.Mpsc.St.new := .init rfl
    obtain ⟨s, hs, htest⟩ := hnew.exists_of_run
      [.push () 7, .goTx () false, .goTx () false, .goTx () false, .goTx () false, .select, .goRx,
        .select, .goRx, .redeem ⟨0, 1, 0, 1⟩, .goRx, .goRx, .goRx, .redeem ⟨0, 1, 0, 1⟩, .goRx,
        .goRx, .goRx]
      (fun s => s.returned = [(0, some 7), (0, some 7)]) (by decide +kernel)
    exact ⟨s, hs, not_delivers_twice htest⟩
  · have hnew : Reachable (ArrayQueue.Spsc.narrowSystem (V := Nat) 64 ArrayQueue.ringTwo)
        ArrayQueue.Spsc.St.new := .init rfl
    obtain ⟨s, hs, htest⟩ := hnew.exists_of_run
      [.push 7, .goTx, .goTx, .goTx, .start .select, .goRx, .goRx, .start .select, .goRx, .goRx,
        .redeem ⟨0, 2 ^ 32 + 1, 0⟩, .goRx, .goRx, .redeem ⟨0, 2 ^ 32 + 1, 0⟩, .goRx, .goRx]
      (fun s => s.returned = [(0, some 7), (0, some 7)]) (by decide +kernel)
    exact ⟨s, hs, not_delivers_twice htest⟩
  · have hnew : Reachable
        (ArrayQueue.Mpsc.narrowSystem (ι := Unit) (V := Nat) 64 ArrayQueue.ringTwo)
        ArrayQueue.Mpsc.St.new := .init rfl
    obtain ⟨s, hs, htest⟩ := hnew.exists_of_run
      [.push () 7 false, .goTx () false, .goTx () false, .goTx () false, .goTx () false,
        .start .select, .goRx, .goRx, .goRx, .start .select, .goRx, .goRx, .goRx,
        .redeem ⟨0, 2 ^ 32 + 1, 0⟩, .goRx, .goRx, .redeem ⟨0, 2 ^ 32 + 1, 0⟩, .goRx, .goRx]
      (fun s => s.returned = [(0, some 7), (0, some 7)]) (by decide +kernel)
    exact ⟨s, hs, not_delivers_twice htest⟩

end Crossfire.Select
