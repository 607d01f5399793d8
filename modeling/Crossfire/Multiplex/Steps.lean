import Crossfire.Multiplex.Model

/-!
# The steps of a `Multiplex` by what they do to its channels

Of the consumer only three things matter for what is delivered: the message it carries, that it has
read that no channel is open, and which channels it has yet to look at (`Pc.left`). Of a sender it
matters whether it has a handle of a channel or is about to close it. `does_of_step` sorts the
steps by that.

For the choice of the channel it is the other way around: `turns_of_step` sorts the steps of the
consumer by the index they pass to `get_unchecked`, and those of the senders are all alike.
-/

set_option autoImplicit false

namespace Crossfire.Multiplex

open Lib.Cycle Lib.Interleaving Crossfire.Waker Crossfire.Registry Function

/-! ## Roles -/

/-- The channel a sender belongs to. -/
def SendPc.chan {V : Type} : SendPc V → Option Nat
  | .idle c | .trying c _ | .close c | .fire c _ _ => some c
  | .absent => none

/-- The sender has a handle of channel `c`. -/
def SendPc.holds {V : Type} (c : Nat) : SendPc V → Nat
  | .idle c' | .trying c' _ | .fire c' _ false => if c' = c then 1 else 0
  | .absent | .close _ | .fire _ _ true => 0

/-- The sender was the last one of channel `c` and has yet to run `close`. -/
def SendPc.closes {V : Type} (c : Nat) : SendPc V → Nat
  | .close c' => if c' = c then 1 else 0
  | .absent | .idle _ | .trying _ _ | .fire _ _ _ => 0

/-- The sender has given up its handle, and if it was the last one of its channel it has closed
it. -/
def SendPc.isDropped {V : Type} : SendPc V → Bool
  | .absent | .fire _ _ true => true
  | .idle _ | .trying _ _ | .close _ | .fire _ _ false => false

/-- The message of channel `c` that is on its way to the caller. -/
def Pc.inFlight {V : Type} : Pc V → Nat → List V
  | .got i v, c => if i = c then [v] else []
  | _, _ => []

/-- The consumer has read that no channel is open, and these channels are left to look at. -/
def Pc.left {V : Type} (len : Nat) : Pc V → Option (List Nat)
  | .scan (.final true) _ idx n | .scan .tryFinal _ idx n => some (ahead len idx n)
  | .err .disconnected => some []
  | _ => none

/-- The scans that follow the reading of no open channel. -/
def Scan.sure : Scan → Bool
  | .final closing => closing
  | .tryFinal => true
  | .cached | .spin | .tryOpen => false

section Roles

variable {ι V : Type} {s : St ι V} {choice : Bool}

theorem inFlight_of_ne_got {pc : Pc V} (h : ∀ i v, pc ≠ .got i v) (c : Nat) :
    pc.inFlight c = [] := by
  cases pc with
  | got i v => exact absurd rfl (h i v)
  | _ => rfl

theorem left_scan (len start idx n : Nat) (k : Scan) :
    (Pc.scan k start idx n : Pc V).left len = if k.sure then some (ahead len idx n) else none := by
  cases k with
  | final closing => cases closing <;> rfl
  | cached | spin | tryOpen | tryFinal => rfl

theorem left_scanned {len start : Nat} {k : Scan} (l : List Nat)
    (hl : (s.scanned start choice k).left len = some l) : k.sure = true := by
  cases k with
  | cached => cases hl
  | spin => cases choice <;> cases hl
  | final closing =>
    cases closing with
    | false => cases hl
    | true => rfl
  | tryOpen =>
    simp only [St.scanned] at hl
    split_ifs at hl <;> cases hl
  | tryFinal => rfl

theorem inFlight_scanned (start : Nat) (k : Scan) (c : Nat) :
    (s.scanned start choice k).inFlight c = [] := by
  cases k with
  | spin => cases choice <;> rfl
  | final closing => cases closing <;> rfl
  | cached | tryOpen | tryFinal => rfl

theorem inFlight_startPc (call : Call) (c : Nat) : (startPc call : Pc V).inFlight c = [] := by
  cases call with
  | recv | tryRecv => rfl
  | recvTimeout overflow => cases overflow <;> rfl

theorem left_startPc (len : Nat) (call : Call) : (startPc call : Pc V).left len = none := by
  cases call with
  | recv | tryRecv => rfl
  | recvTimeout overflow => cases overflow <;> rfl

@[simp] theorem SendPc.holds_absent (c : Nat) : (absent : SendPc V).holds c = 0 := rfl

@[simp] theorem SendPc.closes_absent (c : Nat) : (absent : SendPc V).closes c = 0 := rfl

@[simp] theorem SendPc.holds_idle (c : Nat) : (idle c : SendPc V).holds c = 1 := if_pos rfl

@[simp] theorem SendPc.closes_idle (c c' : Nat) : (idle c : SendPc V).closes c' = 0 := rfl

@[simp] theorem SendPc.holds_close (c c' : Nat) : (close c : SendPc V).holds c' = 0 := rfl

@[simp] theorem SendPc.closes_close (c : Nat) : (close c : SendPc V).closes c = 1 := if_pos rfl

@[simp] theorem SendPc.holds_gone (c c' : Nat) (pc : FirePc) :
    (fire c pc true : SendPc V).holds c' = 0 := rfl

@[simp] theorem SendPc.closes_fire (c c' : Nat) (pc : FirePc) (gone : Bool) :
    (fire c pc gone : SendPc V).closes c' = 0 := rfl

/-- A sender of another channel. -/
theorem SendPc.holds_of_ne {pc : SendPc V} {c : Nat} (h : pc.chan ≠ some c) :
    pc.holds c = 0 ∧ pc.closes c = 0 := by
  cases pc with
  | absent => exact ⟨rfl, rfl⟩
  | idle | trying => exact ⟨if_neg fun hc => h (congrArg some hc), rfl⟩
  | close => exact ⟨rfl, if_neg fun hc => h (congrArg some hc)⟩
  | fire _ _ gone =>
    cases gone with
    | false => exact ⟨if_neg fun hc => h (congrArg some hc), rfl⟩
    | true => exact ⟨rfl, rfl⟩

theorem SendPc.isDropped_of_zero {pc : SendPc V}
    (h : ∀ c, pc.chan = some c → pc.holds c = 0 ∧ pc.closes c = 0) : pc.isDropped = true := by
  cases pc with
  | absent => rfl
  | idle c | trying c => exact absurd ((h c rfl).1.symm.trans (if_pos rfl)) Nat.zero_ne_one
  | close c => exact absurd ((h c rfl).2.symm.trans (if_pos rfl)) Nat.zero_ne_one
  | fire c pc gone =>
    cases gone with
    | false => exact absurd ((h c rfl).1.symm.trans (if_pos rfl)) Nat.zero_ne_one
    | true => rfl

/-- The last step of `wake` keeps what the sender has. -/
theorem holds_fired (c c' : Nat) (pc : FirePc) (gone : Bool) :
    (fired c gone : SendPc V).holds c' = (SendPc.fire c pc gone : SendPc V).holds c' := by
  cases gone <;> rfl

theorem closes_fired (c c' : Nat) (gone : Bool) : (fired c gone : SendPc V).closes c' = 0 := by
  cases gone <;> rfl

theorem chan_fired {c c' : Nat} {gone : Bool} (h : (fired c gone : SendPc V).chan = some c') :
    c = c' := by
  cases gone <;> cases h
  rfl

end Roles

/-! ## What one step does -/

section Does

variable {ι V : Type} [DecidableEq ι]

/-- The steps of the system, by what they do to the channels. -/
inductive Does (s t : St ι V) : Prop
  /-- The consumer moves on without a message. -/
  | consumer (chan : t.chan = s.chan) (len : t.len = s.len) (opened : t.opened = s.opened)
      (sender : t.sender = s.sender) (quiet : ∀ c, s.pc.inFlight c = [])
      (quiet' : ∀ c, t.pc.inFlight c = [])
      (left : ∀ l, t.pc.left s.len = some l → (s.opened = 0 ∧ ∀ c, c < s.len → c ∈ l) ∨
        ∃ l', s.pc.left s.len = some l' ∧ ∀ c ∈ l', c ∈ l ∨ (s.chan c).queue = [])
  | take (i : Nat) (v : V) (rest : List V) (queue : (s.chan i).queue = v :: rest)
      (chan : t.chan = update s.chan i { s.chan i with queue := rest })
      (len : t.len = s.len) (opened : t.opened = s.opened) (sender : t.sender = s.sender)
      (quiet : ∀ c, s.pc.inFlight c = []) (pc' : t.pc = .got i v)
  /-- A message is returned. -/
  | got (i : Nat) (v : V) (pc : s.pc = .got i v)
      (chan : t.chan = update s.chan i
        { s.chan i with returned := (s.chan i).returned ++ [v] })
      (len : t.len = s.len) (opened : t.opened = s.opened) (sender : t.sender = s.sender)
      (pc' : t.pc = .idle)
  /-- A sender moves on. -/
  | sender (i : ι) (pc' : SendPc V) (chan : t.chan = s.chan) (len : t.len = s.len)
      (opened : t.opened = s.opened) (pc : t.pc = s.pc)
      (sender : t.sender = update s.sender i pc')
      (index : ∀ c, pc'.chan = some c → (s.sender i).chan = some c)
      (holds : ∀ c, pc'.holds c = (s.sender i).holds c)
      (closes : ∀ c, pc'.closes c = (s.sender i).closes c)
  | push (i : ι) (c : Nat) (v : V) (trying : s.sender i = .trying c v)
      (chan : t.chan = update s.chan c { s.chan c with
        queue := (s.chan c).queue ++ [v], pushed := (s.chan c).pushed ++ [v] })
      (len : t.len = s.len) (opened : t.opened = s.opened) (pc : t.pc = s.pc)
      (sender : t.sender = update s.sender i (.fire c .load false))
  /-- The last sender of a channel closes it. -/
  | close (i : ι) (c : Nat) (closing : s.sender i = .close c)
      (chan : t.chan = update s.chan c { s.chan c with closed := true })
      (len : t.len = s.len) (opened : t.opened = s.opened - 1) (pc : t.pc = s.pc)
      (sender : t.sender = update s.sender i (.fire c .load true))
  | addTx (c : Nat) (j : ι) (absent : s.sender j = .absent)
      (source : c < s.len ∧ (s.chan c).txCount ≠ 0 ∨ ∃ i, s.sender i = .idle c)
      (chan : t.chan = update s.chan c { s.chan c with txCount := (s.chan c).txCount + 1 })
      (len : t.len = s.len) (opened : t.opened = s.opened) (pc : t.pc = s.pc)
      (sender : t.sender = update s.sender j (.idle c))
  | closeTx (c : Nat) (i : ι) (idle : s.sender i = .idle c)
      (chan : t.chan = update s.chan c { s.chan c with txCount := (s.chan c).txCount - 1 })
      (len : t.len = s.len) (opened : t.opened = s.opened) (pc : t.pc = s.pc)
      (sender : t.sender = update s.sender i
        (if (s.chan c).txCount ≤ 1 then .close c else .absent))
  | addItem (j : ι) (ch : Chan V) (absent : s.sender j = .absent) (idle : s.pc = .idle)
      (fresh : ch.txCount = 1 ∧ ch.closed = false ∧ ch.pushed = [] ∧ ch.returned = [] ∧
        ch.queue = [])
      (chan : t.chan = update s.chan s.len ch) (len : t.len = s.len + 1)
      (opened : t.opened = s.opened + 1) (pc : t.pc = s.pc)
      (sender : t.sender = update s.sender j (.idle s.len))

variable {s t : St ι V} {choice : Bool}

/-- The consumer goes on to a program counter that promises nothing. -/
theorem does_quiet (hchan : t.chan = s.chan) (hlen : t.len = s.len) (hopened : t.opened = s.opened)
    (hsender : t.sender = s.sender) (hquiet : ∀ c, s.pc.inFlight c = [])
    (hquiet' : ∀ c, t.pc.inFlight c = []) (hleft : t.pc.left s.len = none) : Does s t := by
  refine .consumer hchan hlen hopened hsender hquiet hquiet' fun l hl => ?_
  rw [hleft] at hl
  cases hl

/-- `_try_select_cached`. -/
theorem does_tryCached (hquiet : ∀ c, s.pc.inFlight c = []) : Does s (s.tryCached choice) := by
  unfold St.tryCached
  dsimp only
  split_ifs
  · split
    · next v rest hqueue =>
        exact .take s.lastIdx v rest hqueue rfl rfl rfl rfl hquiet rfl
    · exact does_quiet rfl rfl rfl rfl hquiet (fun _ => rfl) rfl
  · exact does_quiet rfl rfl rfl rfl hquiet (fun _ => rfl) rfl

/-- A round that finds nothing has one channel less to look at, and that one was empty. -/
theorem does_tryNext {k : Scan} {start idx left : Nat} (hpc : s.pc = .scan k start idx (left + 1)) :
    Does s (s.tryNext k start idx left) := by
  have hquiet : ∀ c, s.pc.inFlight c = [] := fun c => by rw [hpc]; rfl
  unfold St.tryNext
  dsimp only
  split
  · next v rest hqueue => exact .take _ v rest hqueue rfl rfl rfl rfl hquiet rfl
  · next hqueue =>
      refine .consumer rfl rfl rfl rfl hquiet (fun _ => rfl) fun l hl => .inr ?_
      replace hl := (left_scan s.len start (next s.len idx) left k).symm.trans hl
      rw [hpc, left_scan]
      split_ifs at hl ⊢ with hsure
      cases hl
      refine ⟨_, rfl, fun c hc => ?_⟩
      rcases List.mem_cons.mp hc with rfl | hmem
      · exact .inr hqueue
      · exact .inl hmem

/-- A scan that is over leaves nothing to look at. -/
theorem does_scanned {k : Scan} {start idx : Nat} (hpc : s.pc = .scan k start idx 0) :
    Does s (s.setPc (s.scanned start choice k)) := by
  have hquiet : ∀ c, s.pc.inFlight c = [] := fun c => by rw [hpc]; rfl
  refine .consumer rfl rfl rfl rfl hquiet (inFlight_scanned start k) fun l hl => .inr ?_
  rw [hpc, left_scan, if_pos (left_scanned l hl)]
  exact ⟨[], rfl, fun c hc => absurd hc List.not_mem_nil⟩

/-- A scan that starts with the reading of the count of open channels looks at all of them. -/
theorem does_opened {k : Scan} {start : Nat} (hquiet : ∀ c, s.pc.inFlight c = [])
    (hk : k.sure = true → s.opened = 0) : Does s (s.setPc (.scan k start start s.len)) := by
  refine .consumer rfl rfl rfl rfl hquiet (fun _ => rfl) fun l hl => .inl ?_
  replace hl := (left_scan s.len start start s.len k).symm.trans hl
  split_ifs at hl with hsure
  cases hl
  exact ⟨hk hsure, fun c hc => mem_ahead hc⟩

/-- A step of the receiver. -/
theorem does_go (h : s.go choice = some t) : Does s t := by
  have quiet : (∀ i v, s.pc ≠ .got i v) → ∀ c, s.pc.inFlight c = [] := inFlight_of_ne_got
  unfold St.go at h
  split at h
  case h_1 => cases h
  case h_2 hpc => cases h; exact does_tryCached (quiet (by simp [hpc]))
  case h_3 hpc => cases h; exact does_scanned hpc
  case h_4 hpc => cases h; exact does_tryNext hpc
  case h_8 hpc => cases h; exact does_opened (quiet (by simp [hpc])) of_decide_eq_true
  case h_10 hpc =>
    split_ifs at h
    cases h
    exact does_quiet rfl rfl rfl rfl (quiet (by simp [hpc])) (fun _ => rfl) rfl
  case h_13 hpc =>
    cases h
    refine does_opened (quiet (by simp [hpc])) fun hsure => ?_
    split_ifs at hsure with hopen
    · cases hsure
    · exact Nat.eq_zero_of_not_pos hopen
  case h_14 hpc => cases h; exact .got _ _ hpc rfl rfl rfl rfl rfl
  case h_9 hpc | h_11 hpc =>
    cases h
    split_ifs <;> exact does_quiet rfl rfl rfl rfl (quiet (by simp [hpc])) (fun _ => rfl) rfl
  all_goals
    next hpc =>
      cases h
      exact does_quiet rfl rfl rfl rfl (quiet (by simp [hpc])) (fun _ => rfl) rfl

/-- A step of `wake` goes on in `wake` or leaves it. -/
theorem sender_of_fire {i : ι} {c : Nat} {pc : FirePc} {gone : Bool}
    (h : s.fire i choice c gone pc = some t) :
    t.chan = s.chan ∧ t.len = s.len ∧ t.opened = s.opened ∧ t.pc = s.pc ∧
      ∃ pc', t.sender = update s.sender i pc' ∧
        ((∃ x, pc' = .fire c x gone) ∨ pc' = fired c gone) := by
  cases pc with
  | load | cas =>
    simp only [St.fire] at h
    split_ifs at h <;> cases h
    · exact ⟨rfl, rfl, rfl, rfl, _, rfl, .inl ⟨_, rfl⟩⟩
    · exact ⟨rfl, rfl, rfl, rfl, _, rfl, .inr rfl⟩
  | hint =>
    cases h
    exact ⟨rfl, rfl, rfl, rfl, _, rfl, .inl ⟨_, rfl⟩⟩
  | wake pc =>
    cases pc with
    | wakeByRef r =>
      cases h
      exact ⟨rfl, rfl, rfl, rfl, _, rfl, .inr rfl⟩
    | returned r => cases h
    | _ =>
      simp only [St.fire] at h
      split at h <;> cases h
      · exact ⟨rfl, rfl, rfl, rfl, _, rfl, .inr rfl⟩
      · exact ⟨rfl, rfl, rfl, rfl, _, rfl, .inl ⟨_, rfl⟩⟩

/-- A step of `fire`. -/
theorem does_fire {i : ι} {c : Nat} {pc : FirePc} {gone : Bool} (hpc : s.sender i = .fire c pc gone)
    (h : s.fire i choice c gone pc = some t) : Does s t := by
  obtain ⟨hchan, hlen, hopened, hcons, pc', hsender, ⟨x, rfl⟩ | rfl⟩ := sender_of_fire h
  · refine .sender i _ hchan hlen hopened hcons hsender ?_ ?_ ?_ <;> rw [hpc]
    · exact fun c' hc' => hc'
    · cases gone <;> exact fun _ => rfl
    · exact fun _ => rfl
  · refine .sender i _ hchan hlen hopened hcons hsender ?_ ?_ ?_ <;> rw [hpc]
    · exact fun c' hc' => congrArg some (chan_fired hc')
    · exact fun c' => holds_fired c c' pc gone
    · exact fun c' => closes_fired c c' gone

/-- A step of a sender. -/
theorem does_goSender {i : ι} (h : s.goSender i choice = some t) : Does s t := by
  cases hpc : s.sender i with
  | absent | idle c => simp [St.goSender, hpc] at h
  | trying c v =>
    simp only [St.goSender, hpc] at h
    split_ifs at h <;> cases h
    · refine .sender i _ rfl rfl rfl rfl rfl ?_ ?_ ?_ <;> rw [hpc]
      · exact fun c' hc' => hc'
      · exact fun _ => rfl
      · exact fun _ => rfl
    · refine .sender i _ rfl rfl rfl rfl rfl ?_ ?_ ?_ <;> rw [hpc]
      · exact fun c' hc' => hc'
      · exact fun _ => rfl
      · exact fun _ => rfl
    · exact .push i c v hpc rfl rfl rfl rfl rfl
  | close c =>
    simp only [St.goSender, hpc] at h
    cases h
    exact .close i c hpc rfl rfl rfl rfl rfl
  | fire c pc gone =>
    simp only [St.goSender, hpc] at h
    exact does_fire hpc h

/-- **Every action is one of `Does`.** -/
theorem does_of_step {a : Act ι V} (h : step s a = some t) : Does s t := by
  cases a with
  | call c =>
    simp only [step] at h
    split at h
    · next hpc =>
        cases h
        exact does_quiet rfl rfl rfl rfl (fun _ => by rw [hpc]; rfl) (inFlight_startPc c)
          (left_startPc s.len c)
    · cases h
  | add j cap weight =>
    simp only [step] at h
    split at h
    · next hpc hj =>
        cases h
        exact .addItem j _ hj hpc ⟨rfl, rfl, rfl, rfl, rfl⟩ rfl rfl rfl rfl rfl
    · cases h
  | go choice => exact does_go h
  | clone i j =>
    simp only [step] at h
    split at h
    · next c hi hj =>
        cases h
        exact .addTx c j hj (.inr ⟨i, hi⟩) rfl rfl rfl rfl rfl
    · cases h
  | upgrade c j =>
    simp only [step] at h
    split at h
    · next hj =>
        split_ifs at h with hc
        cases h
        exact .addTx c j hj (.inl hc) rfl rfl rfl rfl rfl
    · cases h
  | send i v =>
    simp only [step] at h
    split at h
    · next c hpc =>
        cases h
        refine .sender i _ rfl rfl rfl rfl rfl ?_ ?_ ?_ <;> rw [hpc]
        · exact fun c' hc' => hc'
        · exact fun _ => rfl
        · exact fun _ => rfl
    · cases h
  | dropTx i =>
    simp only [step] at h
    split at h
    · next c hpc =>
        cases h
        exact .closeTx c i hpc rfl rfl rfl rfl rfl
    · cases h
  | goSender i choice => exact does_goSender h

end Does

/-! ## Which channel the consumer asks -/

/-- The scans a call starts with. -/
def Scan.first : Scan → Bool
  | .cached | .tryOpen | .tryFinal => true
  | .spin | .final _ => false

/-- The rounds that a scan has to go. -/
def Pc.rounds {V : Type} : Pc V → Nat
  | .scan _ _ _ left => left
  | _ => 0

/-- The first scan of the call is over and has found nothing. -/
def Pc.late {V : Type} : Pc V → Bool
  | .idle | .cached | .tryOpened | .got _ _ => false
  | .scan k _ _ left => !k.first || left == 0
  | .reset _ | .replace _ | .clearHint _ | .opened _ | .deadline | .park | .state | .hint
  | .err _ => true

/-- The consumer has no part in the action. -/
def Act.ofSender {ι V : Type} : Act ι V → Bool
  | .call _ | .add _ _ _ | .go _ => false
  | .clone _ _ | .upgrade _ _ | .send _ _ | .dropTx _ | .goSender _ _ => true

section Turns

variable {ι V : Type}

/-- No message is taken, and the place of the consumer in the list is the same. -/
structure Still (s t : St ι V) : Prop where
  len : t.len = s.len
  lastIdx : t.lastIdx = s.lastIdx
  count : t.count = s.count
  outOfBounds : t.outOfBounds = s.outOfBounds
  weight : ∀ c, (t.chan c).weight = (s.chan c).weight
  queue : ∀ c, (s.chan c).queue ≠ [] → (t.chan c).queue ≠ []

/-- The steps of the consumer by the channel they ask. -/
inductive Goes (s : St ι V) : St ι V → Prop
  | cachedHit (v : V) (rest : List V) (pc : s.pc = .cached) (budget : 0 < s.count)
      (queue : (s.chan s.lastIdx).queue = v :: rest) :
      Goes s ((s.index s.lastIdx).take s.lastIdx v rest (s.count - 1))
  | cachedMiss (n : Nat) (pc : s.pc = .cached) (rounds : n = s.len ∨ n = s.len - 1) :
      Goes s ((s.index s.lastIdx).setPc (.scan .cached s.lastIdx s.lastIdx n))
  | tryOpened (k : Scan) (pc : s.pc = .tryOpened) (first : k.first = true) :
      Goes s (s.setPc (.scan k s.lastIdx s.lastIdx s.len))
  | hit (k : Scan) (start idx left : Nat) (v : V) (rest : List V)
      (pc : s.pc = .scan k start idx (left + 1))
      (queue : (s.chan (next s.len idx)).queue = v :: rest) :
      Goes s ((s.index (next s.len idx)).take (next s.len idx) v rest
        (s.chan (next s.len idx)).weight)
  | miss (k : Scan) (start idx left : Nat) (pc : s.pc = .scan k start idx (left + 1))
      (queue : (s.chan (next s.len idx)).queue = []) :
      Goes s ((s.index (next s.len idx)).setPc (.scan k start (next s.len idx) left))
  /-- A scan is over, or the consumer waits. -/
  | late (t : St ι V) (still : Still s t) (pc : s.pc.late = true) (pc' : t.pc.late = true)
      (rounds : t.pc.rounds ≤ s.len) : Goes s t
  | returns (t : St ι V) (still : Still s t) (pc' : t.pc = .idle) : Goes s t

/-- The actions by what they do to the place of the consumer. -/
inductive Turns [DecidableEq ι] (s : St ι V) : Act ι V → St ι V → Prop
  | call (c : Call) (idle : s.pc = .idle) : Turns s (.call c) { s with call := c, pc := startPc c }
  | add (j : ι) (cap : Option Nat) (weight : Nat) (idle : s.pc = .idle) :
      Turns s (.add j cap weight) (s.addItem j cap weight)
  | go (choice : Bool) (t : St ι V) (goes : Goes s t) : Turns s (.go choice) t
  | aside (a : Act ι V) (t : St ι V) (act : a.ofSender = true) (still : Still s t)
      (pc : t.pc = s.pc) : Turns s a t

variable {s t : St ι V} {choice : Bool}

/-- The receiver is left alone. -/
theorem Still.of_chan (hchan : t.chan = s.chan) (hlen : t.len = s.len)
    (hlast : t.lastIdx = s.lastIdx) (hcount : t.count = s.count)
    (hout : t.outOfBounds = s.outOfBounds) : Still s t where
  len := hlen
  lastIdx := hlast
  count := hcount
  outOfBounds := hout
  weight c := by rw [hchan]
  queue c hc := by rwa [hchan]

/-- One channel is changed, but for its weight, and loses no message. -/
theorem Still.of_update {c : Nat} {ch : Chan V} (hchan : t.chan = update s.chan c ch)
    (hweight : ch.weight = (s.chan c).weight) (hqueue : (s.chan c).queue ≠ [] → ch.queue ≠ [])
    (hlen : t.len = s.len) (hlast : t.lastIdx = s.lastIdx) (hcount : t.count = s.count)
    (hout : t.outOfBounds = s.outOfBounds) : Still s t where
  len := hlen
  lastIdx := hlast
  count := hcount
  outOfBounds := hout
  weight c' := by
    rw [hchan]
    exact field_update Chan.weight hweight c'
  queue c' hc' := by
    rw [hchan]
    rcases eq_or_ne c' c with rfl | hne
    · rw [update_self]
      exact hqueue hc'
    · rwa [update_of_ne hne]

theorem goes_tryCached (hpc : s.pc = .cached) : Goes s (s.tryCached choice) := by
  unfold St.tryCached
  dsimp only
  split_ifs with hbudget
  · split
    · next v rest hqueue => exact .cachedHit v rest hpc hbudget hqueue
    · exact .cachedMiss _ hpc (.inr rfl)
  · exact .cachedMiss _ hpc (.inl rfl)

theorem goes_tryNext {k : Scan} {start idx left : Nat} (hpc : s.pc = .scan k start idx (left + 1)) :
    Goes s (s.tryNext k start idx left) := by
  unfold St.tryNext
  dsimp only
  split
  · next v rest hqueue => exact .hit k start idx left v rest hpc hqueue
  · next hqueue => exact .miss k start idx left hpc hqueue

/-- After a scan the first one is over. -/
theorem late_scanned (s : St ι V) (choice : Bool) (start : Nat) (k : Scan) :
    (s.scanned start choice k).late = true ∧ (s.scanned start choice k).rounds ≤ s.len := by
  cases k with
  | spin => cases choice <;> exact ⟨rfl, by simp [St.scanned, Pc.rounds]⟩
  | final closing => cases closing <;> exact ⟨rfl, Nat.zero_le _⟩
  | cached => exact ⟨rfl, Nat.le_refl _⟩
  | tryOpen | tryFinal => exact ⟨rfl, Nat.zero_le _⟩

/-- A step of the receiver is one of `Goes`. -/
theorem goes_go (h : s.go choice = some t) : Goes s t := by
  have still (pc : Pc V) : Still s (s.setPc pc) := .of_chan rfl rfl rfl rfl rfl
  unfold St.go at h
  split at h
  case h_1 => cases h
  case h_2 hpc => cases h; exact goes_tryCached hpc
  case h_3 start _ hpc =>
    cases h
    obtain ⟨hlate, hrounds⟩ := late_scanned s choice start _
    exact .late _ (still _) (by rw [hpc]; simp [Pc.late]) hlate hrounds
  case h_4 hpc => cases h; exact goes_tryNext hpc
  case h_8 hpc => cases h; exact .late _ (still _) (by rw [hpc]; rfl) rfl (Nat.le_refl _)
  case h_10 hpc =>
    split_ifs at h
    cases h
    exact .late _ (.of_chan rfl rfl rfl rfl rfl) (by rw [hpc]; rfl) rfl (Nat.zero_le _)
  case h_12 hpc => cases h; exact .late _ (still _) (by rw [hpc]; rfl) rfl (Nat.le_refl _)
  case h_13 hpc =>
    cases h
    refine .tryOpened _ hpc ?_
    split_ifs <;> rfl
  case h_14 i v hpc =>
    cases h
    exact .returns _ (.of_update (c := i) rfl rfl (fun hne => hne) rfl rfl rfl rfl) rfl
  case h_15 hpc => cases h; exact .returns _ (still _) rfl
  case h_9 hpc | h_11 hpc =>
    cases h
    split_ifs <;> exact .late _ (still _) (by rw [hpc]; rfl) rfl (Nat.zero_le _)
  all_goals
    next hpc =>
      cases h
      exact .late _ (.of_chan rfl rfl rfl rfl rfl) (by rw [hpc]; rfl) rfl (Nat.zero_le _)

variable [DecidableEq ι]

/-- `fire` leaves the receiver alone. -/
theorem still_of_fire {i : ι} {c : Nat} {pc : FirePc} {gone : Bool}
    (h : s.fire i choice c gone pc = some t) : Still s t ∧ t.pc = s.pc := by
  cases pc with
  | load | cas =>
    simp only [St.fire] at h
    split_ifs at h <;> cases h <;> exact ⟨.of_chan rfl rfl rfl rfl rfl, rfl⟩
  | hint =>
    cases h
    exact ⟨.of_chan rfl rfl rfl rfl rfl, rfl⟩
  | wake pc =>
    cases pc with
    | wakeByRef r =>
      cases h
      exact ⟨.of_chan rfl rfl rfl rfl rfl, rfl⟩
    | returned r => cases h
    | _ =>
      simp only [St.fire] at h
      split at h <;> cases h <;> exact ⟨.of_chan rfl rfl rfl rfl rfl, rfl⟩

/-- A sender leaves the receiver alone. -/
theorem still_of_goSender {i : ι} (h : s.goSender i choice = some t) :
    Still s t ∧ t.pc = s.pc := by
  cases hpc : s.sender i with
  | absent | idle c => simp [St.goSender, hpc] at h
  | trying c v =>
    simp only [St.goSender, hpc] at h
    split_ifs at h <;> cases h
    · exact ⟨.of_chan rfl rfl rfl rfl rfl, rfl⟩
    · exact ⟨.of_chan rfl rfl rfl rfl rfl, rfl⟩
    · exact ⟨.of_update (c := c) rfl rfl (fun _ => List.append_ne_nil_of_right_ne_nil _
        (List.cons_ne_nil v [])) rfl rfl rfl rfl, rfl⟩
  | close c =>
    simp only [St.goSender, hpc] at h
    cases h
    exact ⟨.of_update (c := c) rfl rfl (fun hne => hne) rfl rfl rfl rfl, rfl⟩
  | fire c pc gone =>
    simp only [St.goSender, hpc] at h
    exact still_of_fire h

theorem still_addTx (c : Nat) (j : ι) : Still s (s.addTx c j) :=
  .of_update (c := c) rfl rfl (fun hne => hne) rfl rfl rfl rfl

/-- **Every action is one of `Turns`.** -/
theorem turns_of_step {a : Act ι V} (h : step s a = some t) : Turns s a t := by
  cases a with
  | call c =>
    simp only [step] at h
    split at h
    · next hpc =>
        cases h
        exact .call c hpc
    · cases h
  | add j cap weight =>
    simp only [step] at h
    split at h
    · next hpc hj =>
        cases h
        exact .add j cap weight hpc
    · cases h
  | go choice => exact .go choice t (goes_go h)
  | clone i j =>
    simp only [step] at h
    split at h
    · next c hi hj =>
        cases h
        exact .aside _ _ rfl (still_addTx c j) rfl
    · cases h
  | upgrade c j =>
    simp only [step] at h
    split at h
    · next hj =>
        split_ifs at h with hc
        cases h
        exact .aside _ _ rfl (still_addTx c j) rfl
    · cases h
  | send i v =>
    simp only [step] at h
    split at h
    · cases h
      exact .aside _ _ rfl (.of_chan rfl rfl rfl rfl rfl) rfl
    · cases h
  | dropTx i =>
    simp only [step] at h
    split at h
    · next c hpc =>
        cases h
        exact .aside _ _ rfl (.of_update (c := c) rfl rfl (fun hne => hne) rfl rfl rfl rfl) rfl
    · cases h
  | goSender i choice =>
    obtain ⟨hstill, hpc⟩ := still_of_goSender h
    exact .aside _ _ rfl hstill hpc

end Turns

end Crossfire.Multiplex
