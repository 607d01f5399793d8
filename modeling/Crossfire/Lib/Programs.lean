import Crossfire.Lib.Interleaving

/-!
# Programs of atomic operations

A `Prog S ε α` is what is left to run of a piece of code: it returns a value, performs one atomic
operation and goes on with the answer, calls a function of the signature and goes on with its
result, or panics. Code is written in the monad `Prog S ε`, in the shape of its source; a loop is a
function of the signature whose body calls it again.

A `Machine` lets any number of parties run such code on one shared state. A step performs one
operation of one party, so the runs are the interleavings of the operations.

`Rules` are pre- and postconditions: what code has to ensure before an operation or a call, what it
may assume of an answer or a result, and which panics it may end in. `Prog.wp` is the weakest
precondition of a program for them. If the bodies, the commands and the operations keep the rules
(`Machine.Obeys`), then at every point of every run what is left of each party's program keeps them
(`Machine.Obeys.wp_of_reach`).
-/

set_option autoImplicit false

namespace Crossfire.Lib.Programs

open Lib.Interleaving Function

/-- Operations with the types of their answers, and recursive functions, given with their
arguments, with the types of their results. -/
structure Sig where
  Op : Type
  Ans : Op → Type
  Fn : Type
  Res : Fn → Type

/-- A program returns, performs an operation, calls a function or panics. -/
inductive Prog (S : Sig) (ε α : Type) : Type
  | ret (a : α)
  | op (o : S.Op) (k : S.Ans o → Prog S ε α)
  | call (f : S.Fn) (k : S.Res f → Prog S ε α)
  | panic (e : ε)

variable {S : Sig} {ε α β : Type}

namespace Prog

/-- Run the second program on the result of the first. -/
def andThen (p : Prog S ε α) (g : α → Prog S ε β) : Prog S ε β :=
  match p with
  | .ret a => g a
  | .op o k => .op o fun a => (k a).andThen g
  | .call f k => .call f fun r => (k r).andThen g
  | .panic e => .panic e

instance : Monad (Prog S ε) where
  pure := .ret
  bind := andThen

/-- One operation. -/
def perform (o : S.Op) : Prog S ε (S.Ans o) := .op o .ret

/-- One call. -/
def invoke (f : S.Fn) : Prog S ε (S.Res f) := .call f .ret

end Prog

/-! ## Pre- and postconditions -/

/-- What operations and calls need and what they give. -/
structure Rules (S : Sig) (ε : Type) where
  before : S.Op → Prop
  after : (o : S.Op) → S.Ans o → Prop
  requires : S.Fn → Prop
  ensures : (f : S.Fn) → S.Res f → Prop
  /-- The panics that code may end in. -/
  panics : ε → Prop

namespace Prog

variable {R : Rules S ε} {P Q : α → Prop}

/-- The weakest precondition of a program for the rules `R` and the postcondition `Q`. -/
def wp (R : Rules S ε) (Q : α → Prop) : Prog S ε α → Prop
  | .ret a => Q a
  | .op o k => R.before o ∧ ∀ a, R.after o a → (k a).wp R Q
  | .call f k => R.requires f ∧ ∀ r, R.ensures f r → (k r).wp R Q
  | .panic e => R.panics e

/-- The rule of sequence. -/
theorem wp_andThen {Q : β → Prop} (p : Prog S ε α) (g : α → Prog S ε β) :
    (p.andThen g).wp R Q ↔ p.wp R fun a => (g a).wp R Q := by
  induction p with
  | ret a => exact Iff.rfl
  | op o k ih => exact and_congr Iff.rfl (forall_congr' fun a => imp_congr Iff.rfl (ih a))
  | call f k ih => exact and_congr Iff.rfl (forall_congr' fun r => imp_congr Iff.rfl (ih r))
  | panic e => exact Iff.rfl

theorem wp_bind {Q : β → Prop} (p : Prog S ε α) (g : α → Prog S ε β) :
    (p >>= g).wp R Q ↔ p.wp R fun a => (g a).wp R Q :=
  wp_andThen p g

/-- A weaker postcondition. -/
theorem wp_mono {p : Prog S ε α} (h : p.wp R P) (himp : ∀ a, P a → Q a) : p.wp R Q := by
  induction p with
  | ret a => exact himp a h
  | op o k ih => exact ⟨h.1, fun a ha => ih a (h.2 a ha)⟩
  | call f k ih => exact ⟨h.1, fun r hr => ih r (h.2 r hr)⟩
  | panic e => exact h

end Prog

/-! ## Parties that run programs -/

/-- The shared state, and what is left of the program of each party. A party whose program has
returned is between two commands and has the returned value as its local state. -/
structure Threads (S : Sig) (ε α ι σ : Type) where
  shared : σ
  prog : ι → Prog S ε α

/-- A command for a thread, or a step of it. -/
inductive Act (ι χ κ : Type)
  | command (i : ι) (c : κ)
  | go (i : ι) (choice : χ)

/-- Parties `ι` with local states `α` and commands `κ`; the choices `χ` are the scheduler's. -/
structure Machine (S : Sig) (ε α ι σ χ κ : Type) where
  init : σ → (ι → α) → Prop
  /-- One operation of a party; `none` if it has to wait. -/
  exec : σ → ι → χ → (o : S.Op) → Option (S.Ans o × σ)
  body : (f : S.Fn) → Prog S ε (S.Res f)
  start : α → κ → Option (Prog S ε α)

section Run

variable {ι σ χ κ : Type} [DecidableEq ι]

/-- Thread `i` goes on with `p`. -/
def Threads.setProg (t : Threads S ε α ι σ) (i : ι) (p : Prog S ε α) : Threads S ε α ι σ :=
  ⟨t.shared, update t.prog i p⟩

/-- One step: a party between two commands starts the next one, performs its next operation, or
enters the function it calls. -/
def Machine.step (M : Machine S ε α ι σ χ κ) (t : Threads S ε α ι σ) :
    Act ι χ κ → Option (Threads S ε α ι σ)
  | .command i c =>
    match t.prog i with
    | .ret a => (M.start a c).map (t.setProg i)
    | _ => none
  | .go i choice =>
    match t.prog i with
    | .op o k =>
      (M.exec t.shared i choice o).map fun (a, s) => ⟨s, update t.prog i (k a)⟩
    | .call f k => some (t.setProg i ((M.body f).andThen k))
    | .ret _ | .panic _ => none

/-- The runs of a machine. -/
def Machine.system (M : Machine S ε α ι σ χ κ) : System (Threads S ε α ι σ) (Act ι χ κ) where
  init t := ∃ a, M.init t.shared a ∧ t.prog = fun i => .ret (a i)
  step := M.step

/-- The rules are kept: `Inv` holds of the shared state and `Q` of the local states. -/
structure Machine.Obeys (M : Machine S ε α ι σ χ κ) (R : Rules S ε) (Inv : σ → Prop)
    (Q : α → Prop) : Prop where
  init : ∀ s a, M.init s a → Inv s ∧ ∀ i, Q (a i)
  exec : ∀ s i choice o a s', Inv s → R.before o → M.exec s i choice o = some (a, s') →
    R.after o a ∧ Inv s'
  body : ∀ f, R.requires f → (M.body f).wp R (R.ensures f)
  start : ∀ a c p, Q a → M.start a c = some p → p.wp R Q

variable {M : Machine S ε α ι σ χ κ} {R : Rules S ε} {Inv : σ → Prop} {Q : α → Prop}
  {t t' : Threads S ε α ι σ} {a : Act ι χ κ}

/-- **A step of any thread keeps all specifications.** -/
theorem Machine.Obeys.wp_of_step (h : M.Obeys R Inv Q)
    (hold : Inv t.shared ∧ ∀ i, (t.prog i).wp R Q) (hstep : M.step t a = some t') :
    Inv t'.shared ∧ ∀ i, (t'.prog i).wp R Q := by
  obtain ⟨hinv, hprog⟩ := hold
  -- the program of the party that moves; the others keep theirs
  have hmoves {i : ι} {p : Prog S ε α} (hp : p.wp R Q) (j : ι) :
      (update t.prog i p j).wp R Q :=
    forall_phase (fun j _ => hprog j) hp j
  cases a with
  | command i c =>
    have hi := hprog i
    cases hp : t.prog i with
    | ret a =>
      simp only [step, hp, Option.map_eq_some_iff] at hstep
      obtain ⟨p, hstart, rfl⟩ := hstep
      rw [hp] at hi
      exact ⟨hinv, hmoves (h.start a c p hi hstart)⟩
    | op | call | panic => simp [step, hp] at hstep
  | go i choice =>
    have hi := hprog i
    cases hp : t.prog i with
    | op o k =>
      simp only [step, hp, Option.map_eq_some_iff] at hstep
      obtain ⟨⟨a, s⟩, hexec, rfl⟩ := hstep
      rw [hp] at hi
      obtain ⟨hafter, hinv'⟩ := h.exec _ i choice o a s hinv hi.1 hexec
      exact ⟨hinv', hmoves (hi.2 a hafter)⟩
    | call f k =>
      simp only [step, hp, Option.some.injEq] at hstep
      subst hstep
      rw [hp] at hi
      have hbody := Prog.wp_mono (h.body f hi.1) hi.2
      exact ⟨hinv, hmoves ((Prog.wp_andThen _ k).mpr hbody)⟩
    | ret | panic => simp [step, hp] at hstep

/-- In every run, what is left of each program keeps the rules. -/
theorem Machine.Obeys.wp_of_reach (h : M.Obeys R Inv Q) (ht : Reachable M.system t) :
    Inv t.shared ∧ ∀ i, (t.prog i).wp R Q := by
  refine Reach.invariant (P := fun t => Inv t.shared ∧ ∀ i, (t.prog i).wp R Q) ?_ ?_ ht
  · rintro t ⟨a, hinit, hret⟩
    obtain ⟨hinv, hlocal⟩ := h.init _ a hinit
    refine ⟨hinv, fun i => ?_⟩
    rw [hret]
    exact hlocal i
  · intro t a t' hold _ hstep
    exact h.wp_of_step hold hstep

/-- Only the permitted panics happen. -/
theorem Machine.Obeys.panics_of_reach (h : M.Obeys R Inv Q) (ht : Reachable M.system t) {i : ι}
    {e : ε} (hpanic : t.prog i = .panic e) : R.panics e := by
  have hi := (h.wp_of_reach ht).2 i
  rwa [hpanic] at hi

end Run

end Crossfire.Lib.Programs
