import Crossfire.Registry.Runs

/-!
# The registrations of a `Select`

`select.rs`: any number of `Select` objects over channels whose receivers have a `RegistryMulti`. A
`Select` is known by the address of its `SelectWaker`, which is also what a registry compares; an
address may be used again after the `Select` there is dropped. Between calls a `Select` is `idle`.

Its own program is `SelectObj.start` and `SelectObj.next`: the new handlers, and the section under
the lock of one channel (`Effect`) that goes with them. The system interleaves these sections with
each other and with every other operation on the registries. What a scan of the channels finds, how
often the backoff snoozes and when `park` returns are choices of the scheduler.

Cancelling matches by the waker only, so it may take the entry of another handler on the same
channel; and removing a handler moves the indices of those behind it. `remove` therefore cancels
once for every handler and marks all of them as not registered. `registrations_in_step` says that
the entries and the marks agree between calls, that a `remove` ends with its handler and all entries
gone (`RemoveEnds`), and that a `drop` ends with no entry left anywhere (`DropEnds`).
-/

set_option autoImplicit false

namespace Crossfire.Select.Registrations

open Lib.Interleaving Crossfire.Registry Function

/-- `RecvHandle`: the channel, the mark, and the address of the receiver. -/
structure RecvHandle (κ : Type) where
  shared : κ
  registered : Bool
  channel : Nat
  deriving DecidableEq, Repr

/-- Program counter of a `Select`; `deadline` says that the call is `select_timeout`. -/
inductive Pc
  /-- No `Select` at this address. -/
  | absent
  | idle
  /-- `_select_blocking`: `_try_select(idx, false)`. -/
  | scan (deadline : Bool)
  /-- `_select_blocking`: the registration loop, at handler `i`. -/
  | register (deadline : Bool) (i : Nat)
  /-- `_select_blocking`: `_try_select(idx, true)`. -/
  | check (deadline : Bool)
  /-- `_select_blocking`: the loop of `check_timeout` and `park`. -/
  | park (deadline : Bool)
  /-- `remove`: the handler at `index` is cancelled and removed. -/
  | cancel (index : Nat)
  /-- `remove`: the loop over the handlers that are left, at handler `i`. -/
  | reset (i : Nat)
  /-- `drop`: the loop over the handlers, at handler `i`. -/
  | dropping (i : Nat)
  deriving DecidableEq, Repr

/-- A `Select`: its handlers and its call. -/
structure SelectObj (κ : Type) where
  handlers : List (RecvHandle κ)
  pc : Pc
  deriving DecidableEq, Repr

/-- The call of a channel's registry that goes with a step. -/
inductive Effect (κ : Type)
  | none
  /-- `reg_waker(i, waker)`. -/
  | reg (c : κ) (i : Nat)
  /-- `cancel_waker(waker)`. -/
  | cancel (c : κ)
  deriving DecidableEq, Repr

/-- The calls on a `Select`. -/
inductive Call (κ : Type)
  | new
  | add (shared : κ) (channel : Nat)
  | remove (channel : Nat)
  | trySelect
  | select (deadline : Bool)
  | drop
  deriving DecidableEq, Repr

/-- What the scheduler chooses: the scan finds a message or a closed channel (the deadline has
passed), the step is repeated, or the call goes on. -/
inductive Choice
  | found
  | again
  | goOn
  deriving DecidableEq, Repr

section Select

variable {κ : Type}

/-- The start of a call. -/
def SelectObj.start (sel : SelectObj κ) (call : Call κ) : Option (SelectObj κ) :=
  match sel.pc, call with
  | .absent, .new => some ⟨[], .idle⟩
  | .idle, .add shared channel => some ⟨sel.handlers ++ [⟨shared, false, channel⟩], .idle⟩
  | .idle, .remove channel =>
    match sel.handlers.findIdx? fun h => h.channel = channel with
    | some index => some { sel with pc := .cancel index }
    | none => some sel
  | .idle, .trySelect => some sel
  | .idle, .select deadline =>
    if sel.handlers.isEmpty then some sel else some { sel with pc := .scan deadline }
  | .idle, .drop => some { sel with pc := .dropping 0 }
  | _, _ => none

/-- The next step of a call. -/
def SelectObj.next (sel : SelectObj κ) (choice : Choice) : Option (SelectObj κ × Effect κ) :=
  match sel.pc with
  | .scan deadline =>
    match choice with
    | .found => some ({ sel with pc := .idle }, .none)
    | .again => some (sel, .none)
    | .goOn => some ({ sel with pc := .register deadline 0 }, .none)
  | .register deadline i =>
    match sel.handlers[i]? with
    | some h =>
      if h.registered then some ({ sel with pc := .register deadline (i + 1) }, .none)
      else
        some (⟨sel.handlers.set i { h with registered := true }, .register deadline (i + 1)⟩,
          .reg h.shared i)
    | none => some ({ sel with pc := .check deadline }, .none)
  | .check deadline =>
    match choice with
    | .found => some ({ sel with pc := .idle }, .none)
    | _ => some ({ sel with pc := .park deadline }, .none)
  | .park deadline =>
    match choice with
    | .found => if deadline then some ({ sel with pc := .idle }, .none) else none
    | .again => some (sel, .none)
    | .goOn => some ({ sel with pc := .scan deadline }, .none)
  | .cancel index =>
    match sel.handlers[index]? with
    | some h =>
      let handlers := sel.handlers.eraseIdx index
      some (⟨handlers, if handlers.isEmpty then .idle else .reset 0⟩, .cancel h.shared)
    | none => none
  | .reset i =>
    match sel.handlers[i]? with
    | some h =>
      some (⟨sel.handlers.set i { h with registered := false }, .reset (i + 1)⟩,
        .cancel h.shared)
    | none => some ({ sel with pc := .idle }, .none)
  | .dropping i =>
    match sel.handlers[i]? with
    | some h => some ({ sel with pc := .dropping (i + 1) }, .cancel h.shared)
    | none => some (⟨[], .absent⟩, .none)
  | .absent | .idle => none

end Select

/-! ## The system -/

section System

variable {κ : Type} [DecidableEq κ]

/-- The registries of the channels and the `Select`s. -/
structure St (κ : Type) where
  reg : κ → Runs.St
  /-- The `Select` at each address. -/
  select : Nat → SelectObj κ

/-- No `Select` yet. -/
def St.new : St κ where
  reg _ := .new
  select _ := ⟨[], .absent⟩

/-- A call starts, a `Select` takes a step, or a registry is used by somebody else. -/
inductive Act (κ : Type)
  | call (n : Nat) (call : Call κ)
  | go (n : Nat) (choice : Choice)
  /-- An operation of somebody else on the registry of `c`. -/
  | registry (c : κ) (a : Runs.Act)

/-- The `Select` that acts. -/
def Act.select : Act κ → Option Nat
  | .call n _ | .go n _ => some n
  | .registry _ _ => none

/-- An operation for a `Select`. -/
def isSelect : Runs.Act → Bool
  | .regSelectWaker _ _ | .cancelSelectWaker _ => true
  | _ => false

/-- The `Select` at `n` becomes `sel`. -/
def St.setSelect (s : St κ) (n : Nat) (sel : SelectObj κ) : St κ :=
  { s with select := update s.select n sel }

/-- An operation on the registry of `c`. -/
def St.onReg (s : St κ) (c : κ) (a : Runs.Act) : Option (St κ) :=
  (Runs.step (s.reg c) a).map fun r => { s with reg := update s.reg c r }

/-- The registry call of the `Select` at `n`. -/
def St.effect (s : St κ) (n : Nat) : Effect κ → Option (St κ)
  | .none => some s
  | .reg c i => s.onReg c (.regSelectWaker i n)
  | .cancel c => s.onReg c (.cancelSelectWaker n)

/-- One action; `none` if it is not possible now. -/
def step (s : St κ) : Act κ → Option (St κ)
  | .call n call => ((s.select n).start call).map (s.setSelect n)
  | .go n choice =>
    match (s.select n).next choice with
    | some (sel, effect) => (s.effect n effect).map fun t => t.setSelect n sel
    | none => none
  | .registry c a => if isSelect a then none else s.onReg c a

/-- The runs of all `Select`s. -/
def system : System (St κ) (Act κ) where
  init s := s = .new
  step := step

/-- The entries of the `Select` at `n` in the selectors of `c`. -/
def entries (r : RegistryMulti) (n : Nat) : List SelectWakerWrapper :=
  r.selectors.filter fun entry => entry.waker = n

/-- The entries of the `Select` at `n` in the registry of `c`. -/
def St.entries (s : St κ) (c : κ) (n : Nat) : List SelectWakerWrapper :=
  Registrations.entries (s.reg c).reg n

end System

/-! ## Lists in which one place changes -/

section Lists

variable {α : Type} {l : List α} {a : α} {i : Nat}

theorem countP_set_add (p : α → Bool) (hat : l[i]? = some a) (b : α) :
    (l.set i b).countP p + (if p a then 1 else 0) = l.countP p + if p b then 1 else 0 := by
  obtain ⟨hi, rfl⟩ := List.getElem?_eq_some_iff.mp hat
  have hset := (List.set_perm_cons_eraseIdx hi b).countP_eq p
  have hold := (List.getElem_cons_eraseIdx_perm hi).countP_eq p
  rw [List.countP_cons] at hset hold
  omega

theorem countP_eraseIdx_add (p : α → Bool) (hat : l[i]? = some a) :
    (l.eraseIdx i).countP p + (if p a then 1 else 0) = l.countP p := by
  obtain ⟨hi, rfl⟩ := List.getElem?_eq_some_iff.mp hat
  have hold := (List.getElem_cons_eraseIdx_perm hi).countP_eq p
  rwa [List.countP_cons] at hold

theorem countP_drop_succ (p : α → Bool) (hat : l[i]? = some a) :
    (l.drop (i + 1)).countP p + (if p a then 1 else 0) = (l.drop i).countP p := by
  obtain ⟨hi, rfl⟩ := List.getElem?_eq_some_iff.mp hat
  rw [List.drop_eq_getElem_cons hi, List.countP_cons]

theorem filter_eraseP_self (p : α → Bool) (l : List α) :
    (l.eraseP p).filter p = (l.filter p).tail := by
  induction l with
  | nil => rfl
  | cons a l ih =>
    by_cases ha : p a = true
    · simp [ha]
    · simp [ha, ih]

theorem filter_eraseP_of_disjoint {p q : α → Bool} (hpq : ∀ a, p a = true → q a = false)
    (l : List α) : (l.eraseP p).filter q = l.filter q := by
  induction l with
  | nil => rfl
  | cons a l ih =>
    by_cases ha : p a = true
    · simp [ha, hpq a ha]
    · simp only [List.eraseP_cons_of_neg ha, List.filter_cons, ih]

end Lists

/-! ## One `Select` and the entries it has in one registry -/

section Program

variable {κ : Type} [DecidableEq κ]

/-- A handler of channel `c`. -/
def onChannel (c : κ) (h : RecvHandle κ) : Bool := decide (h.shared = c)

/-- A handler of channel `c` that is registered. -/
def marked (c : κ) (h : RecvHandle κ) : Bool := h.registered && onChannel c h

/-- The entries in the registry of `c` are those of the handlers marked as registered there. -/
structure Registered (handlers : List (RecvHandle κ)) (c : κ) (l : List SelectWakerWrapper) :
    Prop where
  length : l.length = handlers.countP (marked c)
  index : ∀ entry ∈ l, ∃ h, handlers[entry.channelId]? = some h ∧ h.registered = true ∧ h.shared = c

/-- What the entries in the registry of `c` are at each point of the program. A loop of
cancellations has at least as many handlers on `c` left as there are entries. -/
def Matches (sel : SelectObj κ) (c : κ) (l : List SelectWakerWrapper) : Prop :=
  match sel.pc with
  | .absent => l = []
  | .reset i =>
    l.length ≤ (sel.handlers.drop i).countP (onChannel c) ∧
      ∀ h ∈ sel.handlers.take i, h.registered = false
  | .dropping i => l.length ≤ (sel.handlers.drop i).countP (onChannel c)
  | _ => Registered sel.handlers c l

/-- What the effect of a step does to the entries of `n` in the registry of `c`. -/
def Effect.on (c : κ) (n : Nat) (l : List SelectWakerWrapper) : Effect κ → List SelectWakerWrapper
  | .none => l
  | .reg c' i => if c' = c then l ++ [⟨n, i⟩] else l
  | .cancel c' => if c' = c then l.tail else l

variable {sel sel' : SelectObj κ} {c : κ} {l : List SelectWakerWrapper}
  {handlers : List (RecvHandle κ)} {h : RecvHandle κ} {i n : Nat}

theorem Registered.length_le (hr : Registered handlers c l) :
    l.length ≤ handlers.countP (onChannel c) := by
  rw [hr.length]
  refine List.countP_mono_left fun h _ hmarked => ?_
  simp only [marked, Bool.and_eq_true] at hmarked
  exact hmarked.2

theorem Registered.of_unmarked (hunmarked : ∀ h ∈ handlers, h.registered = false) :
    Registered handlers c [] := by
  refine ⟨?_, nofun⟩
  symm
  rw [List.length_nil, List.countP_eq_zero]
  intro h hh
  simp [marked, hunmarked h hh]

/-- `add` puts an unmarked handler at the end. -/
theorem Registered.add (hr : Registered handlers c l) (hnew : h.registered = false) :
    Registered (handlers ++ [h]) c l := by
  refine ⟨?_, fun entry hentry => ?_⟩
  · rw [List.countP_append, hr.length]
    simp [marked, hnew]
  · obtain ⟨h', hat, hmark⟩ := hr.index entry hentry
    refine ⟨h', ?_, hmark⟩
    rw [List.getElem?_append_left (List.getElem?_eq_some_iff.mp hat).1]
    exact hat

/-- The registration of handler `i`: its mark and its entry come together. -/
theorem Registered.mark (hr : Registered handlers c l) (hat : handlers[i]? = some h)
    (hunmarked : h.registered = false) :
    Registered (handlers.set i { h with registered := true }) c
      ((Effect.reg h.shared i).on c n l) := by
  obtain ⟨hi, _⟩ := List.getElem?_eq_some_iff.mp hat
  have hself : (handlers.set i { h with registered := true })[i]? =
      some { h with registered := true } := List.getElem?_set_self hi
  have hold : ∀ entry ∈ l, ∃ h',
      (handlers.set i { h with registered := true })[entry.channelId]? = some h' ∧
        h'.registered = true ∧ h'.shared = c := by
    intro entry hentry
    obtain ⟨h', hat', hmark⟩ := hr.index entry hentry
    refine ⟨h', ?_, hmark⟩
    rw [List.getElem?_set_ne]
    · exact hat'
    · -- handler `i` is not marked yet
      rintro rfl
      rw [hat] at hat'
      cases hat'
      rw [hunmarked] at hmark
      cases hmark.1
  have hcount := countP_set_add (marked c) hat { h with registered := true }
  simp only [marked, hunmarked, Bool.false_and, Bool.true_and, onChannel, Bool.false_eq_true,
    if_false, decide_eq_true_eq, Nat.add_zero] at hcount
  simp only [Effect.on]
  split_ifs with hc
  · refine ⟨?_, fun entry hentry => ?_⟩
    · rw [List.length_append, hr.length]
      rw [if_pos hc] at hcount
      exact hcount.symm
    · rcases List.mem_append.mp hentry with hentry | hentry
      · exact hold entry hentry
      · cases List.mem_singleton.mp hentry
        exact ⟨_, hself, rfl, hc⟩
  · refine ⟨?_, hold⟩
    rw [if_neg hc] at hcount
    rw [hr.length]
    exact hcount.symm

/-- A cancellation for handler `h` takes one entry off its channel, if there is one. -/
theorem length_cancel_le {count rest : Nat} (hle : l.length ≤ count)
    (hcount : rest + (if onChannel c h then 1 else 0) = count) :
    ((Effect.cancel h.shared).on c n l).length ≤ rest := by
  simp only [Effect.on]
  simp only [onChannel, decide_eq_true_eq] at hcount
  split_ifs at hcount ⊢ with hc
  · rw [List.length_tail]
    omega
  · omega

theorem Matches.registered (hm : Matches sel c l) (hpc : sel.pc = .idle) :
    Registered sel.handlers c l := by
  unfold Matches at hm
  rwa [hpc] at hm

/-- The start of a call. -/
theorem Matches.start {call : Call κ} (hm : Matches sel c l) (hstart : sel.start call = some sel') :
    Matches sel' c l := by
  unfold SelectObj.start at hstart
  split at hstart <;> rename_i hpc
  case h_1 =>
    unfold Matches at hm
    rw [hpc] at hm
    cases hstart
    subst hm
    exact .of_unmarked nofun
  case h_2 shared channel =>
    cases hstart
    exact (hm.registered hpc).add rfl
  case h_3 channel =>
    split at hstart
    · cases hstart
      exact hm.registered hpc
    · cases hstart
      exact hm
  case h_4 =>
    cases hstart
    exact hm
  case h_5 deadline =>
    split_ifs at hstart
    · cases hstart
      exact hm
    · cases hstart
      exact hm.registered hpc
  case h_6 =>
    cases hstart
    exact (hm.registered hpc).length_le
  case h_7 => cases hstart

/-- A step of a call. -/
theorem Matches.next {choice : Choice} {effect : Effect κ} (hm : Matches sel c l)
    (hnext : sel.next choice = some (sel', effect)) : Matches sel' c (effect.on c n l) := by
  unfold SelectObj.next at hnext
  unfold Matches at hm
  split at hnext <;> rename_i hpc <;> rw [hpc] at hm
  case h_1 deadline =>
    -- a scan changes nothing
    split at hnext
    · cases hnext
      exact hm
    · cases hnext
      show Matches sel c l
      rw [Matches, hpc]
      exact hm
    · cases hnext
      exact hm
  case h_2 deadline i =>
    split at hnext
    · next h hat =>
        split_ifs at hnext with hreg
        · cases hnext
          exact hm
        · cases hnext
          exact hm.mark hat (Bool.eq_false_iff.mpr hreg)
    · cases hnext
      exact hm
  case h_3 deadline =>
    split at hnext
    · cases hnext
      exact hm
    · cases hnext
      exact hm
  case h_4 deadline =>
    split at hnext
    · split_ifs at hnext
      cases hnext
      exact hm
    · cases hnext
      show Matches sel c l
      rw [Matches, hpc]
      exact hm
    · cases hnext
      exact hm
  case h_5 index =>
    split at hnext
    · next h hat =>
        cases hnext
        have hle : ((Effect.cancel h.shared).on c n l).length ≤
            (sel.handlers.eraseIdx index).countP (onChannel c) :=
          length_cancel_le hm.length_le (countP_eraseIdx_add (onChannel c) hat)
        unfold Matches
        split_ifs with hempty
        · -- the last handler is gone, and with it the last entry
          rw [List.isEmpty_iff] at hempty
          rw [hempty, List.countP_nil, Nat.le_zero, List.length_eq_zero_iff] at hle
          simp only [hempty, hle]
          exact .of_unmarked nofun
        · exact ⟨hle, nofun⟩
    · cases hnext
  case h_6 i =>
    obtain ⟨hle, hunmarked⟩ := hm
    split at hnext
    · next h hat =>
        cases hnext
        have hi : i < sel.handlers.length := (List.getElem?_eq_some_iff.mp hat).1
        refine ⟨?_, ?_⟩
        · rw [List.drop_set_of_lt (Nat.lt_succ_self i)]
          exact length_cancel_le hle (countP_drop_succ (onChannel c) hat)
        · intro h' hh'
          rw [List.take_add_one, List.getElem?_set_self hi, List.take_set_of_le (Nat.le_refl i)]
            at hh'
          rcases List.mem_append.mp hh' with hh' | hh'
          · exact hunmarked h' hh'
          · cases List.mem_singleton.mp hh'
            rfl
    · next hend =>
        -- the loop has passed every handler
        cases hnext
        rw [List.getElem?_eq_none_iff] at hend
        rw [List.drop_eq_nil_of_le hend, List.countP_nil, Nat.le_zero,
          List.length_eq_zero_iff] at hle
        rw [List.take_of_length_le hend] at hunmarked
        subst hle
        exact .of_unmarked hunmarked
  case h_7 i =>
    split at hnext
    · next h hat =>
        cases hnext
        exact length_cancel_le hm (countP_drop_succ (onChannel c) hat)
    · next hend =>
        cases hnext
        have hle : l.length ≤ (sel.handlers.drop i).countP (onChannel c) := hm
        rw [List.getElem?_eq_none_iff] at hend
        rw [List.drop_eq_nil_of_le hend, List.countP_nil, Nat.le_zero,
          List.length_eq_zero_iff] at hle
        exact hle
  all_goals cases hnext

end Program

/-! ## What the steps of the system do to the entries -/

section Entries

variable {κ : Type} [DecidableEq κ] {s t : St κ} {n m : Nat} {c : κ}

theorem entries_regSelectWaker (r : RegistryMulti) (i n m : Nat) :
    entries (r.regSelectWaker i n) m =
      if n = m then entries r m ++ [⟨n, i⟩] else entries r m := by
  simp only [entries, RegistryMulti.regSelectWaker, List.filter_append]
  split_ifs with hn <;> simp [hn]

/-- One entry of the waker goes. -/
theorem entries_cancelSelectWaker (r : RegistryMulti) (n m : Nat) :
    entries (r.cancelSelectWaker n) m = if n = m then (entries r m).tail else entries r m := by
  simp only [entries, RegistryMulti.cancelSelectWaker]
  split_ifs with hn
  · subst hn
    exact filter_eraseP_self _ _
  · refine filter_eraseP_of_disjoint (fun entry hentry => ?_) _
    rw [decide_eq_true_eq] at hentry
    rw [hentry, decide_eq_false_iff_not]
    exact hn

theorem reg_of_underLock {u v : Runs.St} {r : RegistryMulti} (h : u.underLock r = some v) :
    v.reg = r := by
  unfold Runs.St.underLock at h
  split_ifs at h
  cases h
  rfl

theorem selectors_popped (r : RegistryMulti) (rest : List Nat) :
    (r.popped rest).selectors = r.selectors := by
  unfold RegistryMulti.popped
  split_ifs <;> rfl

theorem selectors_popFirst (r : RegistryMulti) (alive : Nat → Bool) (flag : Flags) :
    (r.popFirst alive flag).2.selectors = r.selectors := by
  unfold RegistryMulti.popFirst
  split_ifs
  · split
    · exact selectors_popped r _
    · exact selectors_popped r _
  · rfl

/-- Only `Select` objects touch the selectors. -/
theorem selectors_of_step {u v : Runs.St} {a : Runs.Act} (ha : isSelect a = false)
    (h : Runs.step u a = some v) : v.reg.selectors = u.reg.selectors := by
  cases a with
  | regSelectWaker | cancelSelectWaker => cases ha
  | regWaker w => rw [reg_of_underLock h]; rfl
  | popFirst flag => rw [reg_of_underLock h, selectors_popFirst]
  | popAgain | clearWakers => rw [reg_of_underLock h]; exact selectors_popped _ _
  | closeLock | closePop | closeStore =>
    simp only [Runs.step] at h
    split_ifs at h
    cases h
    rfl
  | setState w state | dropWaker w =>
    cases h
    rfl

/-- An action on one registry leaves the others. -/
theorem entries_of_onReg {a : Runs.Act} (h : s.onReg c a = some t) :
    (∃ v, Runs.step (s.reg c) a = some v ∧
      ∀ c' m, t.entries c' m = if c = c' then entries v.reg m else s.entries c' m) ∧
      t.select = s.select := by
  unfold St.onReg at h
  rw [Option.map_eq_some_iff] at h
  obtain ⟨v, hv, rfl⟩ := h
  refine ⟨⟨v, hv, fun c' m => ?_⟩, rfl⟩
  split_ifs with hc
  · subst hc
    simp [St.entries]
  · simp [St.entries, update_of_ne (Ne.symm hc)]

/-- The registry call of the `Select` at `n` changes its own entries, and no others. -/
theorem entries_of_effect {effect : Effect κ} (h : s.effect n effect = some t) :
    (∀ c m, t.entries c m = if n = m then effect.on c n (s.entries c m) else s.entries c m) ∧
      t.select = s.select := by
  cases effect with
  | none =>
    cases h
    refine ⟨fun c m => ?_, rfl⟩
    split_ifs <;> rfl
  | reg c₀ i =>
    obtain ⟨⟨v, hv, hentries⟩, hselect⟩ := entries_of_onReg h
    refine ⟨fun c m => ?_, hselect⟩
    rw [hentries, reg_of_underLock hv, entries_regSelectWaker]
    simp only [Effect.on]
    split_ifs with hc hn <;> first | rfl | (subst hc; rfl)
  | cancel c₀ =>
    obtain ⟨⟨v, hv, hentries⟩, hselect⟩ := entries_of_onReg h
    refine ⟨fun c m => ?_, hselect⟩
    rw [hentries, reg_of_underLock hv, entries_cancelSelectWaker]
    simp only [Effect.on]
    split_ifs with hc hn <;> first | rfl | (subst hc; rfl)

/-- A step leaves the entries of every other `Select` alone. -/
theorem entries_of_step {a : Act κ} (h : step s a = some t) (hm : a.select ≠ some m) (c : κ) :
    t.entries c m = s.entries c m := by
  cases a with
  | call n call =>
    simp only [step, Option.map_eq_some_iff] at h
    obtain ⟨sel, _, rfl⟩ := h
    rfl
  | go n choice =>
    simp only [step] at h
    split at h
    · rw [Option.map_eq_some_iff] at h
      obtain ⟨u, hu, rfl⟩ := h
      have hne : n ≠ m := fun heq => hm (congrArg some heq)
      have hentries := (entries_of_effect hu).1 c m
      rw [if_neg hne] at hentries
      exact hentries
    · cases h
  | registry c₀ b =>
    simp only [step] at h
    split_ifs at h with hb
    obtain ⟨⟨v, hv, hentries⟩, _⟩ := entries_of_onReg h
    rw [hentries]
    split_ifs with hc
    · subst hc
      rw [entries, selectors_of_step (Bool.eq_false_iff.mpr hb) hv]
      rfl
    · rfl

/-- A step leaves every other `Select` alone. -/
theorem select_of_step {a : Act κ} (h : step s a = some t) (hm : a.select ≠ some m) :
    t.select m = s.select m := by
  cases a with
  | call n call =>
    simp only [step, Option.map_eq_some_iff] at h
    obtain ⟨sel, _, rfl⟩ := h
    exact update_of_ne (fun heq => hm (congrArg some heq.symm)) _ _
  | go n choice =>
    simp only [step] at h
    split at h
    · rw [Option.map_eq_some_iff] at h
      obtain ⟨u, hu, rfl⟩ := h
      rw [← (entries_of_effect hu).2]
      exact update_of_ne (fun heq => hm (congrArg some heq.symm)) _ _
    · cases h
  | registry c₀ b =>
    simp only [step] at h
    split_ifs at h
    rw [(entries_of_onReg h).2]

/-- A step of a `Select` is the next one of its program. -/
theorem next_of_step {choice : Choice} (h : step s (.go n choice) = some t) :
    ∃ effect, (s.select n).next choice = some (t.select n, effect) ∧
      ∀ c, t.entries c n = effect.on c n (s.entries c n) := by
  simp only [step] at h
  split at h
  · next sel effect hnext =>
      rw [Option.map_eq_some_iff] at h
      obtain ⟨u, hu, rfl⟩ := h
      have hentries := (entries_of_effect hu).1
      refine ⟨effect, ?_, fun c => ?_⟩
      · simp only [St.setSelect, update_self]
        exact hnext
      · have hc := hentries c n
        rw [if_pos rfl] at hc
        exact hc
  · cases h

theorem start_of_step {call : Call κ} (h : step s (.call n call) = some t) :
    (s.select n).start call = some (t.select n) ∧ ∀ c, t.entries c n = s.entries c n := by
  simp only [step, Option.map_eq_some_iff] at h
  obtain ⟨sel, hsel, rfl⟩ := h
  simp only [St.setSelect, update_self]
  exact ⟨hsel, fun _ => rfl⟩

/-- **Entries and marks match in every run.** -/
theorem matches_of_reachable (h : Reachable (system (κ := κ)) s) (n : Nat) (c : κ) :
    Matches (s.select n) c (s.entries c n) := by
  refine h.invariant (P := fun s => ∀ n c, Matches (s.select n) c (s.entries c n)) ?_ ?_ n c
  · rintro s rfl n c
    exact (rfl : [] = [])
  · intro s a t hs _ hstep m c
    by_cases hm : a.select = some m
    · cases a with
      | call m' call =>
        obtain rfl : m' = m := Option.some.inj hm
        obtain ⟨hstart, hentries⟩ := start_of_step hstep
        rw [hentries]
        exact (hs m' c).start hstart
      | go m' choice =>
        obtain rfl : m' = m := Option.some.inj hm
        obtain ⟨effect, hnext, hentries⟩ := next_of_step hstep
        rw [hentries]
        exact (hs m' c).next hnext
      | registry => cases hm
    · -- another party moves
      rw [entries_of_step hstep hm, select_of_step hstep hm]
      exact hs m c

theorem entries_of_absent (h : Reachable (system (κ := κ)) s) (hpc : (s.select n).pc = .absent)
    (c : κ) : s.entries c n = [] := by
  have hmatches := matches_of_reachable h n c
  unfold Matches at hmatches
  rwa [hpc] at hmatches

end Entries

/-! ## A whole call -/

section Calls

variable {κ : Type} [DecidableEq κ] {s t u : St κ} {n index k : Nat} {acts : List (Act κ)}
  {handlers : List (RecvHandle κ)}

/-- The `Select` at `n` starts no call in a schedule. -/
def NoCall (n : Nat) (acts : List (Act κ)) : Prop := ∀ a ∈ acts, ∀ call, a ≠ .call n call

/-- The number of steps in a schedule that the `Select` at `n` takes. -/
def own (n : Nat) (acts : List (Act κ)) : Nat := acts.countP fun a => a.select = some n

/-- The handler is not registered. -/
def RecvHandle.unmark (h : RecvHandle κ) : RecvHandle κ := { h with registered := false }

/-- A `remove` that finds its receiver ends after one more step of its own than there are handlers,
or before; then the handler is gone, no handler is marked, and no channel has an entry. Steps of
others come in between. -/
def RemoveEnds (s : St κ) (n : Nat) : Prop :=
  ∀ channel index t acts u,
    ((s.select n).handlers.findIdx? fun h => h.channel = channel) = some index →
    step s (.call n (.remove channel)) = some t → NoCall n acts → replay system t acts = some u →
      ((s.select n).handlers.length < own n acts → (u.select n).pc = .idle) ∧
      ((u.select n).pc = .idle →
        (u.select n).handlers = ((s.select n).handlers.eraseIdx index).map RecvHandle.unmark ∧
        ∀ c, u.entries c n = [])

/-- A `drop` takes one more step of its own than there are handlers; then the `Select` is gone, and
no channel has an entry of it. -/
def DropEnds (s : St κ) (n : Nat) : Prop :=
  ∀ t acts u, step s (.call n .drop) = some t → NoCall n acts → replay system t acts = some u →
    (own n acts ≤ (s.select n).handlers.length → (u.select n).pc = .dropping (own n acts)) ∧
    ((s.select n).handlers.length < own n acts →
      (u.select n).pc = .absent ∧ ∀ c, u.entries c n = [])

/-- What the steps of a `Select` keep, counted, holds of it at the end of a schedule. -/
theorem replay_own {P : Nat → SelectObj κ → Prop}
    (hnext : ∀ k sel choice sel' effect, P k sel → sel.next choice = some (sel', effect) →
      P (k + 1) sel')
    (hacts : NoCall n acts) (hs : P k (s.select n)) (hrun : replay system s acts = some u) :
    P (k + own n acts) (u.select n) := by
  induction acts generalizing s k with
  | nil =>
    cases hrun
    exact hs
  | cons a rest ih =>
    obtain ⟨t, hstep, hrest⟩ := Option.bind_eq_some_iff.mp hrun
    have hrest' : NoCall n rest := fun b hb => hacts b (List.mem_cons_of_mem a hb)
    by_cases ha : a.select = some n
    · have hcount : own n (a :: rest) = own n rest + 1 := by simp [own, ha]
      obtain ⟨choice, rfl⟩ : ∃ choice, a = .go n choice := by
        cases a with
        | call m call =>
          obtain rfl : m = n := Option.some.inj ha
          exact absurd rfl (hacts _ (List.mem_cons_self ..) call)
        | go m choice =>
          obtain rfl : m = n := Option.some.inj ha
          exact ⟨choice, rfl⟩
        | registry => cases ha
      obtain ⟨effect, hsel, _⟩ := next_of_step hstep
      rw [hcount, Nat.add_comm (own n rest) 1, ← Nat.add_assoc]
      exact ih hrest' (hnext _ _ _ _ _ hs hsel) hrest
    · have hcount : own n (a :: rest) = own n rest := by simp [own, ha]
      rw [hcount]
      refine ih hrest' ?_ hrest
      rwa [select_of_step hstep ha]

/-- A `drop` after `k` steps. -/
def Drops (handlers : List (RecvHandle κ)) (k : Nat) (sel : SelectObj κ) : Prop :=
  k ≤ handlers.length ∧ sel = ⟨handlers, .dropping k⟩ ∨
    k = handlers.length + 1 ∧ sel = ⟨[], .absent⟩

omit [DecidableEq κ] in
/-- One handler is dropped. -/
theorem Drops.next {sel sel' : SelectObj κ} {choice : Choice} {effect : Effect κ}
    (h : Drops handlers k sel) (hnext : sel.next choice = some (sel', effect)) :
    Drops handlers (k + 1) sel' := by
  rcases h with ⟨hk, rfl⟩ | ⟨hk, rfl⟩
  · simp only [SelectObj.next] at hnext
    cases hat : handlers[k]? with
    | some h =>
      rw [hat] at hnext
      cases hnext
      exact .inl ⟨(List.getElem?_eq_some_iff.mp hat).1, rfl⟩
    | none =>
      rw [hat] at hnext
      cases hnext
      have := List.getElem?_eq_none_iff.mp hat
      exact .inr ⟨by omega, rfl⟩
  · cases hnext

/-- A `drop` ends. -/
theorem dropEnds (hs : Reachable (system (κ := κ)) s) (n : Nat) : DropEnds s n := by
  intro t acts u hstep hacts hrun
  have hu : Reachable system u := Reach.of_replay (.step (.call n .drop) hs trivial hstep) hrun
  have hstart : Drops (s.select n).handlers 0 (t.select n) := by
    have h := (start_of_step hstep).1
    unfold SelectObj.start at h
    split at h
    case h_6 => exact .inl ⟨Nat.zero_le _, (Option.some.inj h).symm⟩
    all_goals simp_all
  have hend := replay_own (P := Drops (s.select n).handlers)
    (fun _ _ _ _ _ h hnext => h.next hnext) hacts hstart hrun
  rw [Nat.zero_add] at hend
  rcases hend with ⟨hk, hsel⟩ | ⟨hk, hsel⟩
  · exact ⟨fun _ => by rw [hsel], fun hlt => absurd hk (by omega)⟩
  · have hpc : (u.select n).pc = .absent := by rw [hsel]
    exact ⟨fun hle => absurd hk (by omega), fun _ => ⟨hpc, entries_of_absent hu hpc⟩⟩

/-- The first `i` handlers without their marks. -/
def unmarkTo (i : Nat) (l : List (RecvHandle κ)) : List (RecvHandle κ) :=
  (l.take i).map RecvHandle.unmark ++ l.drop i

omit [DecidableEq κ] in
theorem length_unmarkTo (i : Nat) (l : List (RecvHandle κ)) : (unmarkTo i l).length = l.length := by
  rw [unmarkTo, List.length_append, List.length_map, List.length_take, List.length_drop]
  omega

omit [DecidableEq κ] in
/-- One more handler is unmarked. -/
theorem set_unmarkTo {l : List (RecvHandle κ)} {i : Nat} {h : RecvHandle κ}
    (hat : (unmarkTo i l)[i]? = some h) :
    i < l.length ∧ (unmarkTo i l).set i h.unmark = unmarkTo (i + 1) l := by
  have hi : i < l.length := length_unmarkTo i l ▸ (List.getElem?_eq_some_iff.mp hat).1
  have hlength : ((l.take i).map RecvHandle.unmark).length = i := by simp; omega
  obtain rfl : l[i] = h := by
    rw [unmarkTo, List.getElem?_append_right hlength.le, hlength, Nat.sub_self,
      List.getElem?_drop, Nat.add_zero, List.getElem?_eq_getElem hi] at hat
    exact Option.some.inj hat
  refine ⟨hi, ?_⟩
  rw [unmarkTo, List.set_append_right _ _ hlength.le, hlength, Nat.sub_self,
    List.drop_eq_getElem_cons hi, List.set_cons_zero, unmarkTo, List.take_succ_eq_append_getElem hi,
    List.map_append, List.append_assoc]
  rfl

/-- A `remove` after `k` steps. -/
def Removes (handlers : List (RecvHandle κ)) (index k : Nat) (sel : SelectObj κ) : Prop :=
  k = 0 ∧ sel = ⟨handlers, .cancel index⟩ ∨
    (∃ i, k = i + 1 ∧ i ≤ (handlers.eraseIdx index).length ∧
      sel = ⟨unmarkTo i (handlers.eraseIdx index), .reset i⟩) ∨
    sel = ⟨(handlers.eraseIdx index).map RecvHandle.unmark, .idle⟩

omit [DecidableEq κ] in
/-- One handler is unmarked. -/
theorem Removes.next {sel sel' : SelectObj κ} {choice : Choice} {effect : Effect κ}
    (h : Removes handlers index k sel) (hnext : sel.next choice = some (sel', effect)) :
    Removes handlers index (k + 1) sel' := by
  rcases h with ⟨rfl, rfl⟩ | ⟨i, rfl, hi, rfl⟩ | rfl
  · simp only [SelectObj.next] at hnext
    cases hat : handlers[index]? with
    | none => rw [hat] at hnext; cases hnext
    | some h =>
      rw [hat] at hnext
      cases hnext
      by_cases hempty : (handlers.eraseIdx index).isEmpty = true
      · rw [if_pos hempty, List.isEmpty_iff.mp hempty]
        exact .inr (.inr (by rw [List.isEmpty_iff.mp hempty]; rfl))
      · rw [if_neg hempty]
        exact .inr (.inl ⟨0, rfl, Nat.zero_le _, rfl⟩)
  · simp only [SelectObj.next] at hnext
    cases hat : (unmarkTo i (handlers.eraseIdx index))[i]? with
    | some h =>
      rw [hat] at hnext
      cases hnext
      obtain ⟨hlt, hset⟩ := set_unmarkTo hat
      exact .inr (.inl ⟨i + 1, rfl, hlt, by rw [← hset]; rfl⟩)
    | none =>
      rw [hat] at hnext
      cases hnext
      have hend := List.getElem?_eq_none_iff.mp hat
      rw [length_unmarkTo] at hend
      rw [unmarkTo, List.take_of_length_le hend, List.drop_eq_nil_of_le hend, List.append_nil]
      exact .inr (.inr rfl)
  · cases hnext

/-- A `remove` ends. -/
theorem removeEnds (hs : Reachable (system (κ := κ)) s) (n : Nat) : RemoveEnds s n := by
  intro channel index t acts u hfind hstep hacts hrun
  have hu : Reachable system u :=
    Reach.of_replay (.step (.call n (.remove channel)) hs trivial hstep) hrun
  have hstart : Removes (s.select n).handlers index 0 (t.select n) := by
    have h := (start_of_step hstep).1
    unfold SelectObj.start at h
    split at h
    case h_3 =>
      rename_i hcall
      cases hcall
      rw [hfind] at h
      exact .inl ⟨rfl, (Option.some.inj h).symm⟩
    all_goals simp_all
  have hend := replay_own (P := Removes (s.select n).handlers index)
    (fun _ _ _ _ _ h hnext => h.next hnext) hacts hstart hrun
  rw [Nat.zero_add] at hend
  have hindex : index < (s.select n).handlers.length :=
    (List.findIdx?_eq_some_iff_findIdx_eq.mp hfind).1
  rcases hend with ⟨hk, hsel⟩ | ⟨i, hk, hi, hsel⟩ | hsel
  · rw [hk, hsel]
    exact ⟨nofun, nofun⟩
  · rw [List.length_eraseIdx_of_lt hindex] at hi
    rw [hsel]
    exact ⟨fun hlt => absurd hlt (by omega), nofun⟩
  · have hregistered := fun c => (matches_of_reachable hu n c).registered (by rw [hsel])
    refine ⟨fun _ => by rw [hsel], fun _ => ⟨by rw [hsel], fun c => ?_⟩⟩
    have hlength := (hregistered c).length
    rw [hsel, List.countP_eq_zero.mpr (by simp [marked, RecvHandle.unmark])] at hlength
    exact List.eq_nil_of_length_eq_zero hlength

end Calls

/-- In every run, between the calls of a `Select` its entries in a channel's selectors are as many
as its handlers marked as registered there, and each entry has the index of such a handler; a
`remove` takes its handler and all entries away, and a `drop` leaves no entry anywhere, and there is
none while there is no `Select`; and no step removes an entry of a `Select` other than the one that
takes it. -/
theorem registrations_in_step {κ : Type} [DecidableEq κ] {s : St κ} (h : Reachable system s) :
    (∀ n c, (s.select n).pc = .idle → Registered (s.select n).handlers c (s.entries c n)) ∧
      (∀ n, RemoveEnds s n) ∧ (∀ n, DropEnds s n) ∧
      (∀ n c, (s.select n).pc = .absent → s.entries c n = []) ∧
      ∀ a t, step s a = some t → ∀ m c, a.select ≠ some m → t.entries c m = s.entries c m :=
  ⟨fun n c hpc => (matches_of_reachable h n c).registered hpc, removeEnds h, dropEnds h,
    fun _ c hpc => entries_of_absent h hpc c, fun _ _ hstep _ c hm => entries_of_step hstep hm c⟩

/-- A channel watched through two receivers, both registered, while another `Select` is registered
on the channel too. One receiver is removed; or the `Select` is dropped. -/
theorem registrations_in_step_dropped :
    ∃ s : St Unit, Reachable system s ∧ (s.select 0).pc = .idle ∧
      s.entries () 0 = [⟨0, 0⟩, ⟨0, 1⟩] ∧ s.entries () 1 = [⟨1, 0⟩] ∧
      Registered (s.select 0).handlers () (s.entries () 0) ∧
      (∃ t u, step s (.call 0 (.remove 10)) = some t ∧
        replay system t [.go 0 .goOn, .go 0 .goOn, .go 0 .goOn] = some u ∧
        (u.select 0).handlers = [⟨(), false, 11⟩] ∧ u.entries () 0 = []) ∧
      ∃ t u, step s (.call 0 .drop) = some t ∧
        replay system t [.go 0 .goOn, .go 0 .goOn, .go 0 .goOn] = some u ∧
        (u.select 0).pc = .absent ∧ u.entries () 0 = [] := by
  have hnew : Reachable system (St.new : St Unit) := .init rfl
  obtain ⟨s, hs, hidle, hentries, hother, hhandlers, hremove, hdrop⟩ := hnew.exists_of_run
    [.call 0 .new, .call 1 .new, .call 0 (.add () 10), .call 0 (.add () 11), .call 1 (.add () 12),
      .call 0 (.select true), .call 1 (.select true), .go 0 .goOn, .go 1 .goOn, .go 0 .goOn,
      .go 1 .goOn, .go 0 .goOn, .go 0 .goOn, .go 0 .found]
    (fun s => (s.select 0).pc = .idle ∧ s.entries () 0 = [⟨0, 0⟩, ⟨0, 1⟩] ∧
      s.entries () 1 = [⟨1, 0⟩] ∧ (s.select 0).handlers = [⟨(), true, 10⟩, ⟨(), true, 11⟩] ∧
      (replay system s [.call 0 (.remove 10), .go 0 .goOn, .go 0 .goOn, .go 0 .goOn]).isSome ∧
      (replay system s [.call 0 .drop, .go 0 .goOn, .go 0 .goOn, .go 0 .goOn]).isSome)
    (by decide +kernel)
  obtain ⟨hregistered, hremoves, hdrops, _⟩ := registrations_in_step hs
  have hacts : NoCall 0 [.go 0 .goOn, .go 0 .goOn, (.go 0 .goOn : Act Unit)] := by
    simp [NoCall]
  have hown : own 0 [.go 0 .goOn, .go 0 .goOn, (.go 0 .goOn : Act Unit)] = 3 := by decide
  obtain ⟨u, hu⟩ := Option.isSome_iff_exists.mp hremove
  obtain ⟨t, ht, hrun⟩ := Option.bind_eq_some_iff.mp hu
  obtain ⟨v, hv⟩ := Option.isSome_iff_exists.mp hdrop
  obtain ⟨w, hw, hrun'⟩ := Option.bind_eq_some_iff.mp hv
  obtain ⟨hends, hgone⟩ := hremoves 0 10 0 t _ u (by rw [hhandlers]; rfl) ht hacts hrun
  rw [hhandlers, hown] at hends
  obtain ⟨hleft, hempty⟩ := hgone (hends (by decide))
  have hdropped := (hdrops 0 w _ v hw hacts hrun').2
  rw [hhandlers, hown] at hdropped
  obtain ⟨habsent, hnone⟩ := hdropped (by decide)
  rw [hhandlers] at hleft
  exact ⟨s, hs, hidle, hentries, hother, hregistered 0 () hidle,
    ⟨t, u, ht, hrun, hleft, hempty ()⟩, w, v, hw, hrun', habsent, hnone ()⟩

end Crossfire.Select.Registrations
