import Crossfire.Lib.Doorbell
import Crossfire.Multiplex.Delivery

/-!
# `Multiplex` does not sleep on a ready channel

All channels of a `Multiplex` ring at one `SelectWaker`: its cell is the registration, the state of
the waker is the flag. A sender that has pushed, or has closed its channel, comes to the cell; if
another sender has taken it, that one wakes the consumer, and if it was taken for an earlier receive
the wake comes late and only makes the consumer look once more.

`bell` is this view of a state, and every step of the system is a step of `Lib.Doorbell`
(`bell_step`).

A `Multiplex` can be moved to another thread between two receives. Its waker is made by the first
`init_blocking` and keeps the handle of that thread, so `Threaded` adds the threads and their park
tokens to the model. `multiplex_awake` is the result: a consumer that is parked on the thread of the
waker without a pending `unpark`, while no sender is on the way to wake it, has empty channels and a
sender left. On another thread it may sleep with a message waiting.
-/

set_option autoImplicit false

namespace Crossfire.Multiplex

open Lib.Cycle Lib.Doorbell Lib.Interleaving Crossfire.Waker Crossfire.Registry Function

/-! ## The view -/

/-- How far `fire` is with the bell. -/
def FirePc.ringer : FirePc → Ringer Unit
  | .load | .cas => .toward ()
  | .hint | .wake .load | .wake .store | .wake .cas => .holds
  | .wake (.wakeByRef _) => .unparks
  | .wake (.returned _) => .away

/-- How far a sender is with the bell. -/
def SendPc.ringer {V : Type} : SendPc V → Ringer Unit
  | .fire _ pc _ => pc.ringer
  | .absent | .idle _ | .trying _ _ | .close _ => .away

/-- The next step of the sender is the `unpark`. -/
def SendPc.unparks {V : Type} : SendPc V → Bool
  | .fire _ (.wake (.wakeByRef _)) _ => true
  | _ => false

/-- The sender has changed its channel, or is about to close it, and has not woken the consumer
yet. -/
def SendPc.notifies {V : Type} : SendPc V → Bool
  | .fire _ _ _ | .close _ => true
  | .absent | .idle _ | .trying _ _ => false

/-- Where the receiver is as a sleeper. -/
def Pc.stage {V : Type} : Pc V → Stage
  | .replace _ | .clearHint _ | .opened _ | .scan (.final false) _ _ _ | .deadline | .park =>
    .listens
  | .state => .up
  | _ => .off

/-- After `init_blocking`, up to the reading of the state. -/
def Pc.isArmed {V : Type} : Pc V → Bool
  | .clearHint _ | .opened _ | .scan (.final false) _ _ _ | .deadline | .park | .state => true
  | _ => false

/-- The topics are that no channel is open, and that channel `c` has a message. The consumer looks
at the first one when it reads the count, and at the channels one after the other. -/
def Pc.Watched {V : Type} (len : Nat) : Pc V → Option Nat → Prop
  | .scan (.final false) _ _ _, none | .deadline, none | .park, none | .state, none => True
  | .scan (.final false) _ idx left, some c => c < len ∧ c ∉ ahead len idx left
  | .deadline, some c | .park, some c | .state, some c => c < len
  | _, _ => False

section View

variable {ι V : Type}

/-- What the receiver waits for: all channels closed, or a message in channel `c`. -/
def St.Ready (s : St ι V) : Option Nat → Prop
  | none => s.opened = 0
  | some c => (s.chan c).queue ≠ []

/-- `token` is the park token of the thread that the waker unparks. -/
def bell (token : Bool) (s : St ι V) : Bell ι Unit (Option Nat) where
  armed _ := s.cell
  rung := s.waker.isWoken
  token := token
  stage := s.pc.stage
  ringer i := (s.sender i).ringer
  set _ := s.pc.isArmed = true
  watched := s.pc.Watched s.len
  ready := s.Ready

/-- Every channel has the same line and the same registration. -/
abbrev BellStep (b b' : Bell ι Unit (Option Nat)) : Prop := Bell.Step (fun _ => ()) b b'

theorem isArmed_of_watched {pc : Pc V} {len : Nat} {t : Option Nat} (h : pc.Watched len t) :
    pc.isArmed = true := by
  unfold Pc.Watched at h
  split at h <;> first | rfl | exact h.elim

theorem ringer_fired (c : Nat) (gone : Bool) : (fired c gone : SendPc V).ringer = .away := by
  cases gone <;> rfl

variable {pc : SendPc V}

theorem ringer_of_notifies (h : pc.notifies = false) : pc.ringer = .away := by
  cases pc <;> first | rfl | cases h

/-- The action is the `unpark` of a sender. -/
def St.unparks (s : St ι V) : Act ι V → Bool
  | .goSender i _ => (s.sender i).unparks
  | _ => false

/-- The action is the return of `park`. -/
def St.parks (s : St ι V) : Act ι V → Bool
  | .go _ =>
    match s.pc with
    | .park => true
    | _ => false
  | _ => false

variable {s t : St ι V} {choice x x' : Bool}

theorem pc_of_parks (h : s.parks (.go choice) = true) : s.pc = .park := by
  cases hpc : s.pc with
  | park => rfl
  | _ => simp [St.parks, hpc] at h

theorem ready_congr (hchan : t.chan = s.chan) (hopened : t.opened = s.opened) (y : Option Nat) :
    t.Ready y = s.Ready y := by
  cases y with
  | none => exact congrArg (· = 0) hopened
  | some c => exact congrArg (fun f : Nat → Chan V => (f c).queue ≠ []) hchan

/-- The handles of a channel are not what the consumer looks at. -/
theorem ready_setChan {c : Nat} {ch : Chan V} (hqueue : ch.queue = (s.chan c).queue)
    (hchan : t.chan = update s.chan c ch) (hopened : t.opened = s.opened)
    (y : Option Nat) (hy : t.Ready y) : s.Ready y := by
  cases y with
  | none => exact hopened.symm.trans hy
  | some d =>
    have hd : (t.chan d).queue = (s.chan d).queue := by
      rw [hchan]
      exact field_update Chan.queue hqueue d
    exact fun hnil => hy (hd.trans hnil)

/-! ## The consumer -/

/-- The consumer moves on; it may look at more topics, but none becomes ready. -/
theorem bell_go (hcell : s.cell = true → t.cell = true) (hwaker : t.waker = s.waker)
    (hx : x' = x) (hsender : t.sender = s.sender) (hchan : t.chan = s.chan)
    (hopened : t.opened = s.opened) (hstage : t.pc.stage = s.pc.stage)
    (hset : t.pc.isArmed = true → s.pc.isArmed = true ∨ t.cell = true)
    (hwatched : ∀ y, t.pc.Watched t.len y → s.pc.Watched s.len y ∨ ¬ s.Ready y) :
    BellStep (bell x s) (bell x' t) := by
  have hready := ready_congr hchan hopened
  refine .inr (.go hstage ⟨?_, ?_, ?_⟩ hx (fun _ => hcell) (fun _ => hset) fun y hy => ?_)
  · exact congrArg (fun f : ι → SendPc V => fun i => (f i).ringer) hsender
  · exact congrArg WakerState.isWoken hwaker
  · exact fun y hy => (hready y).mp hy
  · exact ⟨isArmed_of_watched hy, (hwatched y hy).imp_right fun hnot hy => hnot ((hready y).mp hy)⟩

theorem bell_off (h : t.pc.stage = .off) : BellStep (bell x s) (bell x' t) := .inr (.leave h)

/-- The scan looks at a channel. -/
theorem bell_tryNext {k : Scan} {start idx left : Nat}
    (hpc : s.pc = .scan k start idx (left + 1)) (hx : x' = x) :
    BellStep (bell x s) (bell x' (s.tryNext k start idx left)) := by
  unfold St.tryNext
  dsimp only
  split
  · exact bell_off rfl
  · next hqueue =>
      by_cases hk : k = .final false
      · subst hk
        refine bell_go id rfl hx rfl rfl rfl (by rw [hpc]; rfl) (fun _ => .inl (by rw [hpc]; rfl))
          fun y hy => ?_
        rw [hpc]
        cases y with
        | none => exact .inl trivial
        | some c =>
          -- the channel it has just looked at is empty
          obtain ⟨hc, hnot⟩ := hy
          by_cases hidx : c = next s.len idx
          · exact .inr (not_not.mpr (hidx ▸ hqueue))
          · refine .inl ⟨hc, fun hmem => ?_⟩
            rcases List.mem_cons.mp hmem with heq | hmem
            · exact hidx heq
            · exact hnot hmem
      · refine bell_off ?_
        cases k with
        | final closing =>
          cases closing with
          | false => exact absurd rfl hk
          | true => rfl
        | _ => rfl

/-- The scan ends. -/
theorem bell_scanned {k : Scan} {start idx : Nat} (hpc : s.pc = .scan k start idx 0)
    (hx : x' = x) : BellStep (bell x s) (bell x' (s.setPc (s.scanned start choice k))) := by
  cases k with
  | final closing =>
    cases closing with
    | true => exact bell_off rfl
    | false =>
      refine bell_go id rfl hx rfl rfl rfl (by rw [hpc]; rfl)
        (fun _ => .inl (by rw [hpc]; rfl)) fun y hy => .inl ?_
      rw [hpc]
      cases y with
      | none => trivial
      | some c => exact ⟨hy, List.not_mem_nil⟩
  | spin => cases choice <;> exact bell_off rfl
  | _ => exact bell_off rfl

/-- A step of the consumer that does not look at a channel. -/
theorem bell_same {pc : Pc V} (hx : x' = x) (hstage : pc.stage = s.pc.stage)
    (hset : pc.isArmed = true → s.pc.isArmed = true)
    (hwatched : ∀ y, pc.Watched s.len y → s.pc.Watched s.len y ∨ ¬ s.Ready y) :
    BellStep (bell x s) (bell x' (s.setPc pc)) :=
  bell_go id rfl hx rfl rfl rfl hstage (fun h => .inl (hset h)) hwatched

/-- Only the return of `park` takes a token. -/
theorem bell_of_go (h : s.go choice = some t) (hx : s.pc ≠ .park → x' = x) :
    BellStep (bell x s) (bell x' t) := by
  unfold St.go at h
  split at h
  case h_1 => cases h
  case h_2 hpc =>
    cases h
    unfold St.tryCached
    dsimp only
    split_ifs
    · split <;> exact bell_off rfl
    · exact bell_off rfl
  case h_3 hpc => cases h; exact bell_scanned hpc (hx (by simp [hpc]))
  case h_4 hpc => cases h; exact bell_tryNext hpc (hx (by simp [hpc]))
  -- `reset_init`
  case h_5 => cases h; exact .inr (.clear rfl rfl (fun _ => nofun) fun _ => id)
  -- the cell is filled
  case h_6 hpc =>
    cases h
    refine bell_go (fun _ => rfl) rfl (hx (by simp [hpc])) rfl rfl rfl ?_ (fun _ => .inr rfl) nofun
    rw [hpc]
    rfl
  case h_7 hpc =>
    cases h
    refine bell_go id rfl (hx (by simp [hpc])) rfl rfl rfl ?_ (fun _ => .inl ?_) nofun
    · rw [hpc]; rfl
    · rw [hpc]; rfl
  -- the count of open channels is read
  case h_8 hpc =>
    cases h
    by_cases hopen : s.opened = 0
    · rw [decide_eq_true hopen]
      exact bell_off rfl
    · rw [decide_eq_false hopen]
      refine bell_same (hx (by simp [hpc])) (by rw [hpc]; rfl) (fun _ => by rw [hpc]; rfl)
        fun y hy => .inr ?_
      cases y with
      | none => exact hopen
      | some c => exact absurd (mem_ahead hy.1) hy.2
  case h_9 hpc =>
    cases h
    split_ifs
    · exact bell_off rfl
    · refine bell_same (hx (by simp [hpc])) (by rw [hpc]; rfl) (fun _ => by rw [hpc]; rfl)
        fun y hy => .inl ?_
      rw [hpc]
      cases y <;> exact hy
  -- `park` returns
  case h_10 hpc =>
    split_ifs at h
    cases h
    refine .inr (.park ?_ rfl ⟨rfl, rfl, fun _ => id⟩ rfl (fun _ _ => ?_) fun y hy => ⟨rfl, ?_⟩)
    · show s.pc.stage = _
      rw [hpc]
      rfl
    · show s.pc.isArmed = true
      rw [hpc]
      rfl
    · show s.pc.Watched s.len y
      rw [hpc]
      cases y <;> exact hy
  -- the state of the waker is read
  case h_11 hpc =>
    cases h
    split_ifs with hwoken
    · exact bell_off rfl
    · refine .inr (.resume ?_ rfl (Bool.not_eq_true _ |>.mp hwoken) ⟨rfl, rfl, fun _ => id⟩ rfl
        (fun _ _ => ?_) fun y hy => ⟨rfl, ?_⟩)
      · show s.pc.stage = _
        rw [hpc]
        rfl
      · show s.pc.isArmed = true
        rw [hpc]
        rfl
      · show s.pc.Watched s.len y
        rw [hpc]
        cases y <;> exact hy
  case h_13 hpc => cases h; split_ifs <;> exact bell_off rfl
  all_goals cases h; exact bell_off rfl

/-! ## The senders -/

variable [DecidableEq ι]

/-- A step of sender `i`, by what it does to the registration, the flag and the token. -/
theorem bell_sender {i : ι} (hsender : t.sender = update s.sender i pc)
    (hpc : t.pc = s.pc) (hlen : t.len = s.len)
    (hready : ∀ y, t.Ready y → s.Ready y ∨ pc.ringer = .toward ())
    (hmoves : Moves (bell x s) (bell x' t) (s.sender i).ringer pc.ringer) :
    BellStep (bell x s) (bell x' t) := by
  have hself : (bell x' t).ringer i = pc.ringer := by
    show (t.sender i).ringer = _
    rw [hsender, update_self]
  refine .inl ⟨i, congrArg Pc.stage hpc, fun j hj => ?_, fun _ hp => ?_, fun y hy => ?_,
    fun y hy => ?_, ?_⟩
  · show (t.sender j).ringer = (s.sender j).ringer
    rw [hsender, update_of_ne hj]
  · exact (congrArg (fun p : Pc V => p.isArmed = true) hpc).mp hp
  · refine ⟨?_, isArmed_of_watched hy⟩
    show s.pc.Watched s.len y
    rw [← hpc, ← hlen]
    exact hy
  · rw [hself]
    exact hready y hy
  · rw [hself]
    exact hmoves

/-- A step of sender `i` that rings nobody. -/
theorem bell_away {i : ι} (hsender : t.sender = update s.sender i pc)
    (hpc : t.pc = s.pc) (hlen : t.len = s.len) (hcell : t.cell = s.cell)
    (hwaker : t.waker = s.waker) (hready : ∀ y, t.Ready y → s.Ready y)
    (hringer : (s.sender i).ringer = .away) (hringer' : pc.ringer = .away) :
    BellStep (bell x s) (bell x t) := by
  refine bell_sender hsender hpc hlen (fun y hy => .inl (hready y hy)) ?_
  rw [hringer, hringer']
  exact .stay _ (congrArg (fun b _ => b) hcell) (congrArg WakerState.isWoken hwaker) rfl

theorem fire_wake {i : ι} {c : Nat} {pc : WakePc} {gone : Bool} (hpc : pc = .load ∨ pc = .cas) :
    s.fire i choice c gone (.wake pc) = match wakeStep s.waker pc choice with
      | (state, .returned _) => some { s.setSender i (fired c gone) with waker := state }
      | (state, pc') => some { s.setSender i (.fire c (.wake pc') gone) with waker := state } := by
  rcases hpc with rfl | rfl <;> rfl

/-- A step of `fire`. -/
theorem bell_fire {i : ι} {c : Nat} {pc : FirePc} {gone : Bool}
    (hpc : s.sender i = .fire c pc gone) (h : s.fire i choice c gone pc = some t) :
    BellStep (bell x s) (bell ((s.sender i).unparks || x) t) := by
  -- `wake` leaves the channels alone
  have hsame {pc' : SendPc V} {u : St ι V} {y : Bool}
      (hsender : u.sender = update s.sender i pc') (hupc : u.pc = s.pc)
      (hlen : u.len = s.len) (hchan : u.chan = s.chan) (hopened : u.opened = s.opened)
      (hmoves : Moves (bell x s) (bell y u) pc.ringer pc'.ringer) :
      BellStep (bell x s) (bell y u) := by
    refine bell_sender hsender hupc hlen (fun y hy => .inl ?_) (by rw [hpc]; exact hmoves)
    exact (ready_congr hchan hopened y).mp hy
  rw [hpc]
  cases pc with
  | load =>
    simp only [St.fire] at h
    split_ifs at h with hcell <;> cases h
    · exact hsame rfl rfl rfl rfl rfl (.stay _ rfl rfl rfl)
    · refine hsame rfl rfl rfl rfl rfl ?_
      rw [ringer_fired]
      exact .leave () _ rfl rfl rfl rfl (Bool.not_eq_true _ |>.mp hcell)
  | cas =>
    simp only [St.fire] at h
    split_ifs at h with hcell <;> cases h
    · exact hsame rfl rfl rfl rfl rfl (.take () (fun _ hp => absurd rfl hp) rfl rfl)
    · refine hsame rfl rfl rfl rfl rfl ?_
      rw [ringer_fired]
      exact .leave () _ rfl rfl rfl rfl (Bool.not_eq_true _ |>.mp hcell)
  | hint =>
    cases h
    exact hsame rfl rfl rfl rfl rfl (.stay _ rfl rfl rfl)
  | wake pc =>
    have hlook (hpc : pc = .load ∨ pc = .cas) : BellStep (bell x s) (bell x t) := by
      have hringer : (FirePc.wake pc).ringer = .holds := by rcases hpc with rfl | rfl <;> rfl
      rw [fire_wake hpc] at h
      rw [hringer] at hsame
      rcases wakeStep_cases hpc s.waker choice with
        ⟨hstep, hwoken⟩ | ⟨pc', hstep, hgo⟩ | hstep
      · rw [hstep] at h
        cases h
        refine hsame rfl rfl rfl rfl rfl ?_
        rw [ringer_fired]
        exact .skip _ rfl hwoken rfl rfl rfl
      · rw [hstep] at h
        rcases hgo with rfl | rfl <;> cases h <;>
          exact hsame rfl rfl rfl rfl rfl (.stay _ rfl rfl rfl)
      · rw [hstep] at h
        cases h
        exact hsame rfl rfl rfl rfl rfl (.ring rfl rfl rfl)
    cases pc with
    | load => exact hlook (.inl rfl)
    | cas => exact hlook (.inr rfl)
    | store =>
      cases h
      exact hsame rfl rfl rfl rfl rfl (.ring rfl rfl rfl)
    | wakeByRef r =>
      cases h
      refine hsame rfl rfl rfl rfl rfl ?_
      rw [ringer_fired]
      exact .unpark _ rfl rfl rfl rfl
    | returned r => cases h

/-- A step of a sender. -/
theorem bell_of_goSender {i : ι} (h : s.goSender i choice = some t) :
    BellStep (bell x s) (bell ((s.sender i).unparks || x) t) := by
  unfold St.goSender at h
  split at h
  case h_1 c v hpc =>
    rw [hpc]
    by_cases hfull : isFull (s.chan c) = true
    · rw [if_pos hfull] at h
      cases h
      refine bell_away rfl rfl rfl rfl rfl (fun _ => id) (by rw [hpc]; rfl) ?_
      split_ifs <;> rfl
    · rw [if_neg hfull] at h
      cases h
      refine bell_sender rfl rfl rfl (fun _ _ => .inr rfl) ?_
      rw [hpc]
      exact .start () rfl rfl rfl
  case h_2 c hpc =>
    cases h
    rw [hpc]
    refine bell_sender rfl rfl rfl (fun _ _ => .inr rfl) ?_
    rw [hpc]
    exact .start () rfl rfl rfl
  case h_3 c pc gone hpc => exact bell_fire hpc h
  all_goals cases h

/-- A handle is made or given up. -/
theorem bell_setChan {j : ι} {c : Nat} {ch : Chan V}
    (hqueue : ch.queue = (s.chan c).queue) (hringer : (s.sender j).ringer = .away)
    (hringer' : pc.ringer = .away) :
    BellStep (bell x s) (bell x ((s.setChan c ch).setSender j pc)) :=
  bell_away rfl rfl rfl rfl rfl (ready_setChan hqueue rfl rfl) hringer hringer'

/-- Every step of the system is a step of the bell. The token `x` is set by an `unpark`, and only
the return of `park` may clear it. -/
theorem bell_step {a : Act ι V} (h : step s a = some t)
    (hx : s.parks a = true ∨ x' = (s.unparks a || x)) :
    BellStep (bell x s) (bell x' t) := by
  -- only a step of the receiver can park
  by_cases hgo : ∃ choice, a = .go choice
  · obtain ⟨choice, rfl⟩ := hgo
    refine bell_of_go h fun hne => ?_
    exact hx.resolve_left fun hpark => hne (pc_of_parks hpark)
  · obtain rfl : x' = (s.unparks a || x) := hx.resolve_left fun hpark => by
      cases a with
      | go choice => exact hgo ⟨choice, rfl⟩
      | _ => cases hpark
    cases a with
    | go choice => exact absurd ⟨choice, rfl⟩ hgo
    | call c =>
      simp only [step] at h
      split at h
      · cases h
        refine bell_off ?_
        cases c with
        | recvTimeout overflow => cases overflow <;> rfl
        | _ => rfl
      · cases h
    | add j cap weight =>
      simp only [step] at h
      split at h
      · next hpc hj =>
          cases h
          refine bell_off ?_
          show s.pc.stage = _
          rw [hpc]
          rfl
      · cases h
    | clone i j =>
      simp only [step] at h
      split at h
      · next c hi hj =>
          cases h
          exact bell_setChan rfl (by rw [hj]; rfl) rfl
      · cases h
    | upgrade c j =>
      simp only [step] at h
      split at h
      · next hj =>
          split_ifs at h
          cases h
          exact bell_setChan rfl (by rw [hj]; rfl) rfl
      · cases h
    | send i v =>
      simp only [step] at h
      split at h
      · next c hi =>
          cases h
          exact bell_away rfl rfl rfl rfl rfl (fun _ => id) (by rw [hi]; rfl) rfl
      · cases h
    | dropTx i =>
      simp only [step] at h
      split at h
      · next c hi =>
          cases h
          refine bell_setChan rfl (by rw [hi]; rfl) ?_
          split_ifs <;> rfl
      · cases h
    | goSender i choice => exact bell_of_goSender h

end View

/-! ## Threads -/

/-- A `Multiplex` with the threads that use it. -/
structure Threaded (ι V : Type) where
  base : St ι V
  /-- The thread that has the `Multiplex`. -/
  here : Nat
  /-- The thread whose handle is in the waker. -/
  home : Option Nat
  tokens : Nat → Bool

/-- An action, or a move to another thread. -/
inductive ThreadedAct (ι V : Type)
  | act (a : Act ι V)
  /-- The `Multiplex` is sent to another thread. -/
  | move (thread : Nat)

section Threads

variable {ι V : Type} [DecidableEq ι]

/-- `init_blocking` makes the waker once, for the current thread. -/
def Threaded.homeAfter (s : Threaded ι V) : Act ι V → Option Nat
  | .go _ =>
    match s.base.pc with
    | .reset _ => some (s.home.getD s.here)
    | _ => s.home
  | _ => s.home

/-- The thread that the waker unparks; before there is a waker, the current one. -/
def Threaded.target (s : Threaded ι V) : Nat := s.home.getD s.here

/-- A step uses the park token of the present thread. -/
def Threaded.step (s : Threaded ι V) : ThreadedAct ι V → Option (Threaded ι V)
  | .act a =>
    (Multiplex.step { s.base with token := s.tokens s.here } a).map fun t =>
      { base := t
        here := s.here
        home := s.homeAfter a
        tokens :=
          if s.base.unparks a then update s.tokens s.target true
          else if s.base.parks a then update s.tokens s.here false
          else s.tokens }
  | .move thread =>
    match s.base.pc with
    | .idle => some { s with here := thread }
    | _ => none

/-- A `Multiplex` that may be moved between threads as an interleaving system. -/
def threadedSystem : System (Threaded ι V) (ThreadedAct ι V) where
  init s := ∃ here, s = ⟨.new, here, none, fun _ => false⟩
  step := Threaded.step

/-- The view of a state, with the token of the thread that the waker unparks. -/
def Threaded.bell (s : Threaded ι V) : Bell ι Unit (Option Nat) :=
  Multiplex.bell (s.tokens s.target) s.base

variable {s t : Threaded ι V}

omit [DecidableEq ι] in
theorem target_homeAfter (s : Threaded ι V) (a : Act ι V) :
    (s.homeAfter a).getD s.here = s.target := by
  unfold Threaded.homeAfter
  split
  · split <;> rfl
  · rfl

/-- **Every action is a step of the bell.** -/
theorem threaded_bell_step {a : ThreadedAct ι V} (h : s.step a = some t) :
    BellStep s.bell t.bell := by
  cases a with
  | act a =>
    simp only [Threaded.step, Option.map_eq_some_iff] at h
    obtain ⟨u, hstep, rfl⟩ := h
    refine bell_step (s := { s.base with token := s.tokens s.here }) hstep ?_
    -- the waker keeps its thread
    simp only [show Threaded.target ⟨u, s.here, s.homeAfter a, _⟩ = s.target from
      target_homeAfter s a]
    by_cases hunparks : s.base.unparks a = true
    · refine .inr ?_
      rw [if_pos hunparks, update_self]
      exact (congrArg (· || _) hunparks).symm
    · rw [if_neg hunparks]
      by_cases hparks : s.base.parks a = true
      · exact .inl hparks
      · refine .inr ?_
        rw [if_neg hparks]
        exact (congrArg (· || s.tokens s.target) (Bool.not_eq_true _ |>.mp hunparks)).symm
  | move thread =>
    simp only [Threaded.step] at h
    split at h
    · next hpc =>
        cases h
        refine bell_off ?_
        show s.base.pc.stage = _
        rw [hpc]
        rfl
    · cases h

theorem inv_bell (h : Reachable threadedSystem s) : Lib.Doorbell.Inv (fun _ => ()) s.bell := by
  refine h.invariant (P := fun s : Threaded ι V => Lib.Doorbell.Inv (fun _ => ()) s.bell) ?_
    fun _ _ _ hs _ hstep => hs.step (threaded_bell_step hstep)
  rintro _ ⟨here, rfl⟩
  exact inv_of_off rfl

/-! ## The result -/

variable [Fintype ι]

/-- The tokens play no part in what is delivered. -/
theorem inv_threaded (h : Reachable threadedSystem s) : Inv s.base := by
  refine h.invariant (P := fun s : Threaded ι V => Inv s.base) ?_ fun s a t hs _ hstep => ?_
  · rintro _ ⟨here, rfl⟩
    exact inv_new
  · cases a with
    | act a =>
      simp only [threadedSystem, Threaded.step, Option.map_eq_some_iff] at hstep
      obtain ⟨u, hu, rfl⟩ := hstep
      have hinv : Inv { s.base with token := s.tokens s.here } :=
        ⟨hs.opened, hs.index, fun c hc => ⟨(hs.held c hc).txCount, (hs.held c hc).phase⟩,
          hs.history, hs.sure⟩
      exact inv_of_does hinv (does_of_step hu)
    | move thread =>
      simp only [threadedSystem, Threaded.step] at hstep
      split at hstep
      · cases hstep
        exact hs
      · cases hstep

/-- A consumer that is parked in `recv` or `recv_timeout` without a pending `unpark`, on the thread
of its waker and while no sender is between its push or its last drop and the end of the
notification, has no message in any channel, and some channel still has a sender. -/
theorem multiplex_awake (h : Reachable threadedSystem s) (hpark : s.base.pc = .park)
    (hhome : s.home = some s.here) (htoken : s.tokens s.here = false)
    (hquiet : ∀ i, (s.base.sender i).notifies = false) :
    (∀ c, c < s.base.len → (s.base.chan c).queue = []) ∧
      ∃ c, c < s.base.len ∧ (s.base.chan c).txCount ≠ 0 := by
  have htarget : s.bell.token = false := by
    show s.tokens (s.home.getD s.here) = false
    rw [hhome]
    exact htoken
  have hnot (y : Option Nat) (hy : s.base.pc.Watched s.base.len y) : ¬ s.base.Ready y :=
    (inv_bell h).not_ready (congrArg Pc.stage hpark) htarget
      (fun i => ringer_of_notifies (hquiet i)) hy
  rw [hpark] at hnot
  refine ⟨fun c hc => not_not.mp (hnot (some c) hc), ?_⟩
  have hinv := inv_threaded h
  have hopen : s.base.opened ≠ 0 := hnot none trivial
  rw [hinv.opened] at hopen
  obtain ⟨c, hc, hclosed⟩ : ∃ c, c < s.base.len ∧ (s.base.chan c).closed = false := by
    by_contra hnone
    exact hopen (Nat.count_iff_forall_not.mpr fun c hc hclosed => hnone ⟨c, hc, hclosed⟩)
  -- nobody is about to close it, so it has a handle
  have hphase := (hinv.held c hc).phase
  have hcloses : ∑ j, (s.base.sender j).closes c = 0 := by
    refine Finset.sum_eq_zero fun j _ => ?_
    have hj := hquiet j
    cases hpc : s.base.sender j with
    | close => rw [hpc] at hj; cases hj
    | _ => rfl
  refine ⟨c, hc, fun hzero => ?_⟩
  rw [hcloses, if_pos hzero, hclosed] at hphase
  cases hphase

/-- The sender takes the registration of the first receive, which finds the message by itself. Its
wake comes when the consumer is parked in the second receive; the consumer looks once more and parks
again. -/
theorem multiplex_awake_late : ∃ s : Threaded (Fin 2) Nat, Reachable threadedSystem s ∧
    s.base.pc = .park ∧ (s.base.chan 0).returned = [7] ∧
    (∀ c, c < 2 → (s.base.chan c).queue = []) ∧ ∃ c, c < 2 ∧ (s.base.chan c).txCount ≠ 0 := by
  have hnew : Reachable threadedSystem (⟨.new, 0, none, fun _ => false⟩ : Threaded (Fin 2) Nat) :=
    .init ⟨0, rfl⟩
  obtain ⟨s, hs, hpark, hhome, htoken, hlen, hreturned, hquiet⟩ := hnew.exists_of_run
    ([.act (.add 0 none 1), .act (.add 1 (some 1) 128), .act (.call .recv)] ++
      List.replicate 10 (.act (.go true)) ++
      [.act (.send 0 7), .act (.goSender 0 false), .act (.goSender 0 false),
        .act (.goSender 0 false)] ++
      List.replicate 3 (.act (.go true)) ++ [.act (.call .recv)] ++
      List.replicate 15 (.act (.go true)) ++ List.replicate 4 (.act (.goSender 0 false)) ++
      List.replicate 14 (.act (.go true)))
    (fun s => s.base.pc = .park ∧ s.home = some s.here ∧ s.tokens s.here = false ∧
      s.base.len = 2 ∧ (s.base.chan 0).returned = [7] ∧
      ∀ i, (s.base.sender i).notifies = false) (by decide +kernel)
  have hawake := multiplex_awake hs hpark hhome htoken hquiet
  rw [hlen] at hawake
  exact ⟨s, hs, hpark, hreturned, hawake⟩

/-- Thread 0 receives a message after it had to wait, and sends the `Multiplex` to thread 1. There
`recv` parks, and the next message unparks thread 0. -/
example : ∃ s : Threaded (Fin 1) Nat, Reachable threadedSystem s ∧ s.base.pc = .park ∧
    s.tokens s.here = false ∧ (∀ i, (s.base.sender i).notifies = false) ∧
    (s.base.chan 0).queue = [8] := by
  have hnew : Reachable threadedSystem (⟨.new, 0, none, fun _ => false⟩ : Threaded (Fin 1) Nat) :=
    .init ⟨0, rfl⟩
  exact hnew.exists_of_run
    ([.act (.add 0 none 1), .act (.call .recv)] ++ List.replicate 12 (.act (.go true)) ++
      [.act (.send 0 7)] ++ List.replicate 7 (.act (.goSender 0 false)) ++
      List.replicate 5 (.act (.go true)) ++ [.move 1, .act (.call .recv)] ++
      List.replicate 12 (.act (.go true)) ++ [.act (.send 0 8)] ++
      List.replicate 7 (.act (.goSender 0 false))) _ (by decide +kernel)

end Threads

end Crossfire.Multiplex
