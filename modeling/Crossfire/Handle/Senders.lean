import Crossfire.Lib.Interleaving

/-!
# The sender count of a channel

`tx_count` of `shared.rs` with the operations on sender handles that change it: `clone`, the
conversions between `Tx` and `AsyncTx` (and `MTx` and `MAsyncTx`), `drop`, `downgrade` and
`WeakTx::upgrade`. One step is one atomic operation on `tx_count`, one `Arc::clone` together with
the construction of the handle around it, or one call of `recvs.close()`; the steps of the threads
interleave arbitrarily.

Handles are numbered in the order of their construction. A handle is used by any thread: it may have
been moved there, or be shared by reference, and then it cannot be dropped or converted before the
call that borrows it returns (`borrowed`). The conversions that only unwrap a handle, such as `MTx`
to `Tx`, keep the handle. The count cannot overflow, since every counted handle holds a reference of
the channel's `Arc` or is about to take one, and `Arc::clone` aborts beyond `isize::MAX` references;
it is a `Nat` here.

`txCount_counts` is the result: the count is the number of handles, and the drop that brings it to
zero, and no other one, closes the registry of the receivers before it returns.
-/

set_option autoImplicit false

namespace Crossfire.Handle.Senders

open Lib.Interleaving Function

/-! ## Program counters -/

/-- The calls on a sender handle `h`, and `upgrade` of a weak one. -/
inductive Op
  | clone (h : Nat)
  /-- `From<AsyncTx> for Tx` and the other conversions that build a new handle. -/
  | convert (h : Nat)
  | drop (h : Nat)
  | downgrade (h : Nat)
  | upgrade
  deriving DecidableEq, Repr

/-- Program counter of an agent, with the handle it works on. -/
inductive Pc
  | idle
  /-- `clone`: `add_tx`. -/
  | clone (h : Nat)
  /-- `clone`: the new handle. -/
  | cloneNew (h : Nat)
  /-- `from(value)`: `add_tx`. -/
  | convert (h : Nat)
  /-- `from(value)`: the new handle. -/
  | convertNew (h : Nat)
  | downgrade (h : Nat)
  /-- `try_add_tx` loads the count. -/
  | upgrade
  /-- `try_add_tx`: the compare-exchange. -/
  | upgradeCas (count : Nat)
  /-- `upgrade`: the new handle. -/
  | upgradeNew
  /-- `close_tx` of handle `h`: `fetch_sub`. A conversion returns the handle `new` afterwards. -/
  | closeTx (h : Nat) (new : Option Nat)
  /-- `close_tx` of handle `h`: `recvs.close()`. -/
  | close (h : Nat) (new : Option Nat)
  deriving DecidableEq, Repr

/-- The handles that a call has as its own: the one it consumes, and a counted one that it has not
returned yet. -/
def Pc.owned : Pc → Nat
  | .idle | .clone _ | .downgrade _ | .upgrade | .upgradeCas _ => 0
  | .cloneNew _ | .convert _ | .upgradeNew => 1
  | .convertNew _ => 2
  | .closeTx _ new => 1 + new.toList.length
  | .close _ new => new.toList.length

/-- The handle that a call has a reference to. -/
def Pc.borrows : Pc → Option Nat
  | .clone h | .cloneNew h | .downgrade h => some h
  | _ => none

/-- The handle whose drop is about to call `recvs.close()`. -/
def Pc.closes : Pc → Option Nat
  | .close h _ => some h
  | _ => none

theorem eq_close_of_closes {pc : Pc} {h : Nat} (hpc : pc.closes = some h) :
    ∃ new, pc = .close h new := by
  cases pc <;> simp_all [Pc.closes]

/-- `try_add_tx` after a load, or after a compare-exchange that failed. -/
def tryAdd (count : Nat) : Pc := if count = 0 then .idle else .upgradeCas count

/-! ## State and steps -/

/-- The counter, the handles and the calls. -/
structure St (ι : Type) where
  txCount : Nat
  /-- The handles that no call has taken over. -/
  live : List Nat
  /-- Number of handles constructed so far. -/
  next : Nat
  /-- Number of `WeakTx`. -/
  weak : Nat
  pc : ι → Pc
  /-- The handles whose `fetch_sub` brought the count to zero. -/
  zeroed : List Nat
  /-- The handles whose drop called `recvs.close()`. -/
  closed : List Nat
  /-- Number of upgrades that succeeded after the count had been zero. -/
  late : Nat

/-- A new channel with its first handle. -/
def St.new {ι : Type} : St ι where
  txCount := 1
  live := [0]
  next := 1
  weak := 0
  pc _ := .idle
  zeroed := []
  closed := []
  late := 0

/-- A call starts, an agent takes a step, or a weak handle is dropped. -/
inductive Act (ι : Type)
  | call (i : ι) (op : Op)
  | go (i : ι)
  | dropWeak
  deriving DecidableEq, Repr

section Step

variable {ι : Type} [DecidableEq ι]

/-- A call that consumes handle `h` and starts at `pc`. -/
def St.take (s : St ι) (i : ι) (h : Nat) (pc : Pc) : St ι :=
  { s with live := s.live.erase h, pc := update s.pc i pc }

/-- A call returns the handles `hs`. -/
def St.give (s : St ι) (i : ι) (hs : List Nat) : St ι :=
  { s with live := hs ++ s.live, pc := update s.pc i .idle }

/-- Agent `i` goes to `pc`. -/
def St.setPc (s : St ι) (i : ι) (pc : Pc) : St ι := { s with pc := update s.pc i pc }

/-- The next step of the call of `i`. -/
def St.advance (s : St ι) (i : ι) : Option (St ι) :=
  match s.pc i with
  | .idle => none
  | .clone h =>
    some { s with txCount := s.txCount + 1, pc := update s.pc i (.cloneNew h) }
  | .cloneNew _ =>
    some { s with
      live := s.next :: s.live, next := s.next + 1, pc := update s.pc i .idle }
  | .convert h =>
    some { s with txCount := s.txCount + 1, pc := update s.pc i (.convertNew h) }
  | .convertNew h =>
    -- `value` is dropped at the end of `from`, before the new handle is returned
    some { s with
      next := s.next + 1, pc := update s.pc i (.closeTx h (some s.next)) }
  | .downgrade _ => some { s with weak := s.weak + 1, pc := update s.pc i .idle }
  | .upgrade => some (s.setPc i (tryAdd s.txCount))
  | .upgradeCas count =>
    if s.txCount = count then
      some { s with
        txCount := count + 1
        late := if s.zeroed = [] then s.late else s.late + 1
        pc := update s.pc i .upgradeNew }
    else some (s.setPc i (tryAdd s.txCount))
  | .upgradeNew =>
    some { s with
      live := s.next :: s.live, next := s.next + 1, pc := update s.pc i .idle }
  | .closeTx h new =>
    let s' := { s with
      txCount := s.txCount - 1
      zeroed := if s.txCount = 1 then h :: s.zeroed else s.zeroed }
    if s.txCount ≤ 1 then some (s'.setPc i (.close h new)) else some (s'.give i new.toList)
  | .close h new => some ({ s with closed := h :: s.closed }.give i new.toList)

variable [Fintype ι]

/-- Some call has a reference to handle `h`. -/
def St.borrowed (s : St ι) (h : Nat) : Prop := ∃ j, (s.pc j).borrows = some h

instance (s : St ι) (h : Nat) : Decidable (s.borrowed h) :=
  inferInstanceAs (Decidable (∃ j, (s.pc j).borrows = some h))

/-- The start of a call. -/
def St.start (s : St ι) (i : ι) : Op → Option (St ι)
  | .clone h => if h ∈ s.live then some (s.setPc i (.clone h)) else none
  | .downgrade h => if h ∈ s.live then some (s.setPc i (.downgrade h)) else none
  | .convert h =>
    if h ∈ s.live ∧ ¬ s.borrowed h then some (s.take i h (.convert h)) else none
  | .drop h =>
    if h ∈ s.live ∧ ¬ s.borrowed h then some (s.take i h (.closeTx h none)) else none
  | .upgrade => if 0 < s.weak then some (s.setPc i .upgrade) else none

/-- One action; `none` if it is not possible now. -/
def step (s : St ι) : Act ι → Option (St ι)
  | .call i op => if s.pc i = .idle then s.start i op else none
  | .go i => s.advance i
  | .dropWeak => if 0 < s.weak then some { s with weak := s.weak - 1 } else none

/-- One handle, and the steps of its users. -/
def system : System (St ι) (Act ι) := ⟨fun s => s = St.new, step⟩

/-- The number of sender handles: those of the program, and those that calls have as their own. -/
def St.handles (s : St ι) : Nat := s.live.length + ∑ j, (s.pc j).owned

end Step

/-! ## The life of the count -/

/-- The count is positive until one `fetch_sub` brings it to zero. It stays there, and the drop of
that handle closes the registry. -/
inductive Life {ι : Type} (count : Nat) (zeroed closed : List Nat) (closes : ι → Option Nat) : Prop
  | senders (hcount : 0 < count) (hzeroed : zeroed = []) (hclosed : closed = [])
      (hcloses : ∀ j, closes j = none)
  | closing (i : ι) (h : Nat) (hcount : count = 0) (hzeroed : zeroed = [h]) (hclosed : closed = [])
      (hi : closes i = some h) (hcloses : ∀ j, j ≠ i → closes j = none)
  | ended (h : Nat) (hcount : count = 0) (hzeroed : zeroed = [h]) (hclosed : closed = [h])
      (hcloses : ∀ j, closes j = none)

section Life

variable {ι : Type} {count : Nat} {zeroed closed : List Nat} {closes : ι → Option Nat}

theorem Life.of_pos (h : Life count zeroed closed closes) (hpos : 0 < count) :
    zeroed = [] ∧ closed = [] ∧ ∀ j, closes j = none := by
  cases h with
  | senders _ hzeroed hclosed hcloses => exact ⟨hzeroed, hclosed, hcloses⟩
  | closing | ended => omega

/-- A positive count may change to any other one. -/
theorem Life.add (h : Life count zeroed closed closes) (hpos : 0 < count) {count' : Nat}
    (hpos' : 0 < count') : Life count' zeroed closed closes := by
  obtain ⟨hzeroed, hclosed, hcloses⟩ := h.of_pos hpos
  exact .senders hpos' hzeroed hclosed hcloses

theorem Life.zero_iff (h : Life count zeroed closed closes) : zeroed ≠ [] ↔ count = 0 := by
  cases h with
  | senders hcount hzeroed => simp [hzeroed]; omega
  | closing _ _ hcount hzeroed | ended _ hcount hzeroed => simp [hzeroed, hcount]

variable [DecidableEq ι]

/-- The last `fetch_sub`. -/
theorem Life.last {i : ι} {h : Nat} (hl : Life 1 zeroed closed closes) :
    Life 0 (h :: zeroed) closed (update closes i (some h)) := by
  obtain ⟨hzeroed, hclosed, hcloses⟩ := hl.of_pos Nat.one_pos
  refine .closing i h rfl (by rw [hzeroed]) hclosed (update_self ..) fun j hj => ?_
  rw [update_of_ne hj]
  exact hcloses j

/-- `recvs.close()`. -/
theorem Life.close {i : ι} {h : Nat} (hl : Life count zeroed closed closes)
    (hi : closes i = some h) : Life count zeroed (h :: closed) (update closes i none) := by
  cases hl with
  | senders _ _ _ hcloses | ended _ _ _ _ hcloses => simp [hcloses i] at hi
  | closing i' h' hcount hzeroed hclosed hi' hcloses =>
    have heq : i = i' := by
      by_contra hne
      simp [hcloses i hne] at hi
    subst heq
    obtain rfl : h' = h := by
      rw [hi'] at hi
      exact Option.some.inj hi
    refine .ended h' hcount hzeroed (by rw [hclosed]) fun j => ?_
    by_cases hj : j = i
    · rw [hj, update_self]
    · rw [update_of_ne hj]
      exact hcloses j hj

end Life

/-! ## The invariant -/

/-- A handle that a call borrows is live; the count that a compare-exchange expects is positive. -/
def Pc.Fits (live : List Nat) : Pc → Prop
  | .clone h | .cloneNew h | .downgrade h => h ∈ live
  | .upgradeCas count => 0 < count
  | _ => True

theorem Pc.Fits.append {live : List Nat} {pc : Pc} (h : pc.Fits live) (hs : List Nat) :
    pc.Fits (hs ++ live) := by
  cases pc with
  | clone h' | cloneNew h' | downgrade h' => exact List.mem_append_right hs h
  | upgradeCas count => exact h
  | _ => trivial

/-- A handle nothing borrows goes. -/
theorem Pc.Fits.erase {live : List Nat} {pc : Pc} {h : Nat} (hfits : pc.Fits live)
    (hfree : pc.borrows ≠ some h) : pc.Fits (live.erase h) := by
  cases pc with
  | clone h' | cloneNew h' | downgrade h' =>
    have hne : h' ≠ h := fun heq => hfree (congrArg some heq)
    exact (List.mem_erase_of_ne hne).mpr hfits
  | upgradeCas count => exact hfits
  | _ => trivial

theorem tryAdd_fits (count : Nat) (live : List Nat) : (tryAdd count).Fits live := by
  unfold tryAdd
  split
  · trivial
  · exact Nat.pos_of_ne_zero ‹_›

theorem tryAdd_owned (count : Nat) : (tryAdd count).owned = 0 := by
  unfold tryAdd
  split <;> rfl

theorem tryAdd_closes (count : Nat) : (tryAdd count).closes = none := by
  unfold tryAdd
  split <;> rfl

section Inv

variable {ι : Type} [Fintype ι] {s t : St ι} {i : ι}

/-- The counter counts the handles, and the last one closes the channel. -/
structure Inv (s : St ι) : Prop where
  count : s.txCount = s.handles
  fits : ∀ j, (s.pc j).Fits s.live
  life : Life s.txCount s.zeroed s.closed fun j => (s.pc j).closes
  late : s.late = 0

theorem inv_new : Inv (St.new : St ι) where
  count := by simp [St.new, St.handles, Pc.owned]
  fits _ := trivial
  life := .senders Nat.one_pos rfl rfl fun _ => rfl
  late := rfl

variable {h : Nat}

theorem Inv.pos_of_mem (hinv : Inv s) (hmem : h ∈ s.live) : 0 < s.txCount := by
  have := List.length_pos_of_mem hmem
  have := hinv.count
  rw [St.handles] at this
  omega

theorem Inv.pos_of_owned (hinv : Inv s) (howned : 0 < (s.pc i).owned) : 0 < s.txCount := by
  have := weight_le_sum Pc.owned s.pc i
  have := hinv.count
  rw [St.handles] at this
  omega

/-- The numbers of handles and of weak handles play no part. -/
theorem Inv.number (hinv : Inv s) (next weak : Nat) :
    Inv { s with next := next, weak := weak } := { hinv with }

variable [DecidableEq ι]

/-- The handles of the calls, after call `i` has moved to `pc`. -/
theorem sum_owned {pc : Pc} {a b : Nat} (hi : (s.pc i).owned = a) (hpc : pc.owned = b) :
    (∑ j, (update s.pc i pc j).owned) + a = (∑ j, (s.pc j).owned) + b := by
  rw [← hi, ← hpc]
  exact sum_update Pc.owned s.pc i pc

/-- Call `i` moves on with the handles that it has. -/
theorem Inv.setPc {pc : Pc} (hinv : Inv s) (howned : pc.owned = (s.pc i).owned)
    (hfits : pc.Fits s.live) (hcloses : pc.closes = (s.pc i).closes) : Inv (s.setPc i pc) where
  count := by
    have hsum := sum_owned (s := s) (i := i) rfl howned
    have := hinv.count
    simp only [St.setPc, St.handles] at this ⊢
    omega
  fits := forall_phase (fun j _ => hinv.fits j) hfits
  life := by
    simp only [St.setPc]
    rw [map_update_of_eq (f := Pc.closes) hcloses]
    exact hinv.life
  late := hinv.late

/-- The count goes up by the handle that call `i` has as its own from then on. -/
theorem Inv.addTx {pc : Pc} (hinv : Inv s) (hpos : 0 < s.txCount)
    (howned : pc.owned = (s.pc i).owned + 1) (hfits : pc.Fits s.live)
    (hcloses : pc.closes = (s.pc i).closes) :
    Inv { s with txCount := s.txCount + 1, pc := update s.pc i pc } where
  count := by
    have hsum := sum_owned (s := s) (i := i) rfl howned
    have := hinv.count
    simp only [St.handles] at this ⊢
    omega
  fits := forall_phase (fun j _ => hinv.fits j) hfits
  life := by
    rw [map_update_of_eq (f := Pc.closes) hcloses]
    exact hinv.life.add hpos (Nat.succ_pos _)
  late := hinv.late

/-- Call `i` consumes handle `h`, which no call borrows. -/
theorem Inv.take {pc : Pc} (hinv : Inv s) (hidle : s.pc i = .idle) (hmem : h ∈ s.live)
    (hfree : ¬ s.borrowed h) (howned : pc.owned = 1) (hfits : pc.Fits (s.live.erase h))
    (hcloses : pc.closes = none) : Inv (s.take i h pc) where
  count := by
    have hsum := sum_owned (show (s.pc i).owned = 0 by rw [hidle]; rfl) howned
    have hlength := List.length_erase_of_mem hmem
    have := List.length_pos_of_mem hmem
    have := hinv.count
    simp only [St.take, St.handles] at this ⊢
    omega
  fits := forall_phase (fun j _ => (hinv.fits j).erase fun hj => hfree ⟨j, hj⟩) hfits
  life := by
    simp only [St.take]
    rw [map_update_of_eq (f := Pc.closes) (by rw [hcloses, hidle]; rfl)]
    exact hinv.life
  late := hinv.late

/-- Call `i` returns the handles that it has. -/
theorem Inv.give {hs : List Nat} (hinv : Inv s) (howned : (s.pc i).owned = hs.length)
    (hcloses : (s.pc i).closes = none) : Inv (s.give i hs) where
  count := by
    have hsum := sum_owned howned (show Pc.idle.owned = 0 from rfl)
    have := hinv.count
    simp only [St.give, St.handles, List.length_append] at this ⊢
    omega
  fits := forall_phase (fun j _ => (hinv.fits j).append hs) trivial
  life := by
    simp only [St.give]
    rw [map_update_of_eq (f := Pc.closes) (by rw [hcloses]; rfl)]
    exact hinv.life
  late := hinv.late

/-- The `fetch_sub` of `close_tx` while other handles are left. -/
theorem Inv.subTx {new : Option Nat} (hinv : Inv s) (hpc : s.pc i = .closeTx h new)
    (hmore : 1 < s.txCount) :
    Inv ({ s with txCount := s.txCount - 1 }.give i new.toList) where
  count := by
    have hsum := sum_owned (show (s.pc i).owned = 1 + new.toList.length by rw [hpc]; rfl)
      (show Pc.idle.owned = 0 from rfl)
    have := hinv.count
    simp only [St.give, St.handles, List.length_append] at this ⊢
    omega
  fits := forall_phase (fun j _ => (hinv.fits j).append _) trivial
  life := by
    simp only [St.give]
    rw [map_update_of_eq (f := Pc.closes) (by rw [hpc]; rfl)]
    exact hinv.life.add (by omega) (by omega)
  late := hinv.late

/-- The `fetch_sub` of `close_tx` that brings the count to zero. -/
theorem Inv.subTx_last {new : Option Nat} (hinv : Inv s) (hpc : s.pc i = .closeTx h new)
    (hone : s.txCount = 1) :
    Inv ({ s with txCount := s.txCount - 1, zeroed := h :: s.zeroed }.setPc i (.close h new)) where
  count := by
    have hsum := sum_owned (show (s.pc i).owned = 1 + new.toList.length by rw [hpc]; rfl)
      (show (Pc.close h new).owned = new.toList.length from rfl)
    have := hinv.count
    simp only [St.setPc, St.handles] at this ⊢
    omega
  fits := forall_phase (fun j _ => hinv.fits j) trivial
  life := by
    have hlife := hinv.life
    rw [hone] at hlife
    simp only [St.setPc, hone, map_update]
    exact hlife.last
  late := hinv.late

/-- `recvs.close()`. -/
theorem Inv.close {new : Option Nat} (hinv : Inv s) (hpc : s.pc i = .close h new) :
    Inv ({ s with closed := h :: s.closed }.give i new.toList) where
  count := by
    have hsum := sum_owned (show (s.pc i).owned = new.toList.length by rw [hpc]; rfl)
      (show Pc.idle.owned = 0 from rfl)
    have := hinv.count
    simp only [St.give, St.handles, List.length_append] at this ⊢
    omega
  fits := forall_phase (fun j _ => (hinv.fits j).append _) trivial
  life := by
    simp only [St.give, map_update]
    exact hinv.life.close (by simp only [hpc, Pc.closes])
  late := hinv.late

/-- A step of an operation. -/
theorem Inv.advance (hinv : Inv s) (hst : s.advance i = some t) : Inv t := by
  have hfits := hinv.fits i
  cases hpc : s.pc i with
  | idle => simp [St.advance, hpc] at hst
  | clone h =>
    rw [hpc] at hfits
    simp only [St.advance, hpc, Option.some.injEq] at hst
    subst hst
    exact hinv.addTx (hinv.pos_of_mem hfits) (by rw [hpc]; rfl) hfits (by rw [hpc]; rfl)
  | cloneNew h | upgradeNew =>
    simp only [St.advance, hpc, Option.some.injEq] at hst
    subst hst
    have hgiven : Inv (s.give i [s.next]) := hinv.give (by rw [hpc]; rfl) (by rw [hpc]; rfl)
    exact hgiven.number _ _
  | convert h =>
    simp only [St.advance, hpc, Option.some.injEq] at hst
    subst hst
    have hpos : 0 < s.txCount := hinv.pos_of_owned (i := i) (by rw [hpc]; exact Nat.one_pos)
    exact hinv.addTx hpos (by rw [hpc]; rfl) trivial (by rw [hpc]; rfl)
  | convertNew h =>
    simp only [St.advance, hpc, Option.some.injEq] at hst
    subst hst
    have hmoved : Inv (s.setPc i (.closeTx h (some s.next))) :=
      hinv.setPc (by rw [hpc]; rfl) trivial (by rw [hpc]; rfl)
    exact hmoved.number _ _
  | downgrade h =>
    simp only [St.advance, hpc, Option.some.injEq] at hst
    subst hst
    have hmoved : Inv (s.setPc i .idle) :=
      hinv.setPc (by rw [hpc]; rfl) trivial (by rw [hpc]; rfl)
    exact hmoved.number _ _
  | upgrade =>
    simp only [St.advance, hpc, Option.some.injEq] at hst
    subst hst
    exact hinv.setPc (by rw [hpc, tryAdd_owned]; rfl) (tryAdd_fits _ _)
      (by rw [hpc, tryAdd_closes]; rfl)
  | upgradeCas count =>
    rw [hpc] at hfits
    simp only [St.advance, hpc] at hst
    split at hst
    · rename_i heq
      subst heq
      -- the count is positive, so it has never been zero and this upgrade is not late
      rw [if_pos (hinv.life.of_pos hfits).1] at hst
      cases hst
      exact hinv.addTx hfits (by rw [hpc]; rfl) trivial (by rw [hpc]; rfl)
    · cases hst
      exact hinv.setPc (by rw [hpc, tryAdd_owned]; rfl) (tryAdd_fits _ _)
        (by rw [hpc, tryAdd_closes]; rfl)
  | closeTx h new =>
    have hpos : 0 < s.txCount := hinv.pos_of_owned (i := i) (by rw [hpc, Pc.owned]; omega)
    simp only [St.advance, hpc] at hst
    by_cases hone : s.txCount = 1
    · rw [if_pos (by omega), if_pos hone] at hst
      cases hst
      exact hinv.subTx_last hpc hone
    · rw [if_neg (by omega), if_neg hone] at hst
      cases hst
      exact hinv.subTx hpc (by omega)
  | close h new =>
    simp only [St.advance, hpc, Option.some.injEq] at hst
    subst hst
    exact hinv.close hpc

/-- The start of an operation. -/
theorem Inv.start {op : Op} (hinv : Inv s) (hidle : s.pc i = .idle)
    (hst : s.start i op = some t) : Inv t := by
  cases op with
  | clone h | downgrade h =>
    simp only [St.start, Option.ite_none_right_eq_some, Option.some.injEq] at hst
    obtain ⟨hmem, rfl⟩ := hst
    exact hinv.setPc (by rw [hidle]; rfl) hmem (by rw [hidle]; rfl)
  | convert h | drop h =>
    simp only [St.start, Option.ite_none_right_eq_some, Option.some.injEq] at hst
    obtain ⟨⟨hmem, hfree⟩, rfl⟩ := hst
    exact hinv.take hidle hmem hfree rfl trivial rfl
  | upgrade =>
    simp only [St.start, Option.ite_none_right_eq_some, Option.some.injEq] at hst
    obtain ⟨-, rfl⟩ := hst
    exact hinv.setPc (by rw [hidle]; rfl) trivial (by rw [hidle]; rfl)

/-- **Every action keeps the invariant.** -/
theorem Inv.step {a : Act ι} (hinv : Inv s) (hst : step s a = some t) : Inv t := by
  cases a with
  | call i op =>
    simp only [Senders.step, Option.ite_none_right_eq_some] at hst
    exact hinv.start hst.1 hst.2
  | go i => exact hinv.advance hst
  | dropWeak =>
    simp only [Senders.step, Option.ite_none_right_eq_some, Option.some.injEq] at hst
    obtain ⟨-, rfl⟩ := hst
    exact hinv.number _ _

theorem inv_of_reach (h : Reachable system s) : Inv s :=
  h.invariant (fun _ hs => hs ▸ inv_new) fun _ _ _ hinv _ hst => hinv.step hst

end Inv

/-! ## The count and the close -/

section Counted

variable {ι : Type} [Fintype ι] [DecidableEq ι] {s : St ι}

/-- What the sender count of a channel is for. -/
structure Counted (s : St ι) : Prop where
  count : s.txCount = s.handles
  zero_iff : s.txCount = 0 ↔ s.zeroed ≠ []
  /-- One `fetch_sub` at most brings the count to zero. -/
  zeroed_once : s.zeroed.length ≤ 1
  /-- `recvs.close()` is called at most once. -/
  closed_once : s.closed.length ≤ 1
  /-- Only the drop that brought the count to zero calls it. -/
  closed_by : ∀ h ∈ s.closed, s.zeroed = [h]
  /-- That drop has called it, or calls it next. -/
  zeroed_closes : ∀ h ∈ s.zeroed, h ∈ s.closed ∨ ∃ i new, s.pc i = .close h new
  /-- A drop that is about to call it brought the count to zero and has not called it yet. -/
  closing : ∀ i h new, s.pc i = .close h new → s.zeroed = [h] ∧ s.closed = []
  /-- Its next step calls it, and the drop returns. -/
  close_step : ∀ i h new, s.pc i = .close h new →
    ∃ t, s.advance i = some t ∧ t.closed = [h] ∧ t.pc i = .idle
  /-- When no call is in progress, the drop that brought the count to zero has called it. -/
  at_rest : (∀ i, s.pc i = .idle) → s.closed = s.zeroed
  /-- No handle is left once the count has been zero. -/
  no_handle : s.zeroed ≠ [] → s.live = [] ∧ ∀ i, (s.pc i).owned = 0
  /-- No upgrade succeeds once the count has been zero. -/
  no_upgrade : s.late = 0

/-- Only the last drop closes. -/
theorem Inv.closing (hinv : Inv s) {i : ι} {h : Nat} {new : Option Nat}
    (hpc : s.pc i = .close h new) : s.zeroed = [h] ∧ s.closed = [] := by
  have hcloses : (s.pc i).closes = some h := by rw [hpc]; rfl
  cases hinv.life with
  | senders _ _ _ hnone | ended _ _ _ _ hnone => simp [hnone i] at hcloses
  | closing i' h' _ hzeroed hclosed hi' hnone =>
    have heq : i = i' := by
      by_contra hne
      simp [hnone i hne] at hcloses
    subst heq
    rw [hi', Option.some.injEq] at hcloses
    exact ⟨hcloses ▸ hzeroed, hclosed⟩

/-- What the invariant says of the count. -/
theorem Inv.counted (hinv : Inv s) : Counted s where
  count := hinv.count
  zero_iff := hinv.life.zero_iff.symm
  zeroed_once := by
    -- the three phases: with senders, closing, closed
    cases hinv.life with
    | senders _ hzeroed | closing _ _ _ hzeroed | ended _ _ hzeroed => simp [hzeroed]
  closed_once := by
    cases hinv.life with
    | senders _ _ hclosed | closing _ _ _ _ hclosed | ended _ _ _ hclosed => simp [hclosed]
  closed_by h hmem := by
    cases hinv.life with
    | senders _ _ hclosed | closing _ _ _ _ hclosed => simp [hclosed] at hmem
    | ended h' _ hzeroed hclosed =>
      rw [hclosed, List.mem_singleton] at hmem
      rw [hzeroed, hmem]
  zeroed_closes h hmem := by
    cases hinv.life with
    | senders _ hzeroed => simp [hzeroed] at hmem
    | closing i h' _ hzeroed _ hi =>
      rw [hzeroed, List.mem_singleton] at hmem
      subst hmem
      obtain ⟨new, hpc⟩ := eq_close_of_closes hi
      exact .inr ⟨i, new, hpc⟩
    | ended h' _ hzeroed hclosed => exact .inl (by rwa [hclosed, ← hzeroed])
  closing i h new hpc := hinv.closing hpc
  close_step i h new hpc := by
    refine ⟨{ s with closed := h :: s.closed }.give i new.toList, by rw [St.advance, hpc], ?_, ?_⟩
    · show h :: s.closed = [h]
      rw [(hinv.closing hpc).2]
    · exact update_self ..
  at_rest hidle := by
    cases hinv.life with
    | senders _ hzeroed hclosed | ended _ _ hzeroed hclosed => rw [hzeroed, hclosed]
    | closing i _ _ _ _ hi => simp [hidle i, Pc.closes] at hi
  no_handle hzeroed := by
    have hcount := hinv.count
    rw [hinv.life.zero_iff.mp hzeroed, St.handles] at hcount
    exact ⟨List.eq_nil_of_length_eq_zero (by omega),
      weight_eq_zero_of_sum Pc.owned s.pc (by omega)⟩
  no_upgrade := hinv.late

/-- In every interleaving the count is the number of sender handles; the registry of the receivers
is closed once, by the drop that brings the count to zero and before that drop returns; and from
then on there is no handle and no upgrade. -/
theorem txCount_counts (h : Reachable system s) : Counted s :=
  (inv_of_reach h).counted

end Counted

/-- An upgrade has loaded the count 1 when the last handle is dropped: its compare-exchange fails,
and so does the upgrade. The drop closes the registry and returns. -/
theorem txCount_counts_upgrade : ∃ s : St Bool, Reachable system s ∧
    (s.zeroed = [0] ∧ s.closed = [0] ∧ s.pc false = .idle ∧ s.pc true = .idle) ∧ Counted s := by
  have hnew : Reachable system (St.new : St Bool) := .init rfl
  obtain ⟨s, hs, hp⟩ := hnew.exists_of_run
    [.call false (.downgrade 0), .go false, .call true .upgrade, .go true,
      .call false (.drop 0), .go false, .go true, .go false]
    (fun s => s.zeroed = [0] ∧ s.closed = [0] ∧ s.pc false = .idle ∧ s.pc true = .idle)
    (by decide +kernel)
  exact ⟨s, hs, hp, txCount_counts hs⟩

end Crossfire.Handle.Senders
