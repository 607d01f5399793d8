import Crossfire.ArrayQueue.Len
import Crossfire.ArrayQueue.Spsc
import Crossfire.ArrayQueue.Mpsc
import Crossfire.ArrayQueue.MpmcInvariant

/-!
# `len`, `is_empty` and `is_full` of the array queues

The three calls load the head and the tail at different moments, while pushes and pops go on. A
queue is watched by one caller (`Watched`): a step is one step of the queue or one load of the call.
The history keeps, for the call in progress, the number of messages in the queue at every instant of
it, and for every call that returned its answer with these numbers.

`len` answers only if it has found the same tail before and after the head. Words repeat, so the
tail must not come around in between. `is_empty` and `is_full` compare a head and a tail of
different moments, and each of them can be up to one lap from the other: `snapshot_true` needs that
the tail moves by less than a full wrap, less one lap, while they run. Otherwise `is_full` can say
true of a queue that is nowhere near full (`isFull_late`).
-/

set_option autoImplicit false

namespace Crossfire.ArrayQueue

open Lib.Interleaving Lib.Packed Lib.Lap

/-- Where the words and the numbers of a queue are. -/
structure Gauge (σ : Type) where
  head : σ → Nat
  tail : σ → Nat
  /-- Number of positions claimed for pops. -/
  claimed : σ → Nat
  /-- Number of positions claimed for pushes. -/
  pushed : σ → Nat

/-- The number of messages. -/
def Gauge.count {σ : Type} (g : Gauge σ) (s : σ) : Nat := g.pushed s - g.claimed s

/-- The calls that look at a queue. -/
inductive Call
  | len
  | isEmpty
  | isFull
  deriving DecidableEq

/-- Program counter of the caller. -/
inductive Look
  | idle
  /-- `len`: the tail. -/
  | lenTail
  /-- `len`: the head. -/
  | lenHead (tail : Nat)
  /-- `len`: the tail again. -/
  | lenAgain (tail head : Nat)
  /-- `is_empty`: the head. -/
  | emptyHead
  /-- `is_empty`: the tail. -/
  | emptyTail (head : Nat)
  /-- `is_full`: the tail. -/
  | fullTail
  /-- `is_full`: the head. -/
  | fullHead (tail : Nat)
  deriving DecidableEq

/-- What a call returned. -/
inductive Said
  /-- `none` if the subtraction overflowed. -/
  | len (n : Option Nat)
  | isEmpty (b : Bool)
  | isFull (b : Bool)
  deriving DecidableEq

/-- A queue with one caller that looks at it. -/
structure Watched (σ : Type) where
  queue : σ
  look : Look
  /-- Number of positions claimed for pushes when the call started. -/
  start : Nat
  /-- The numbers of messages in the queue at the instants of the call. -/
  counts : List Nat
  /-- The answers, each with the numbers at the instants of its call. -/
  log : List (Said × List Nat)

/-- `act` is a step of the queue, `go` a load of the caller. -/
inductive WatchAct (α : Type)
  | act (a : α)
  | call (c : Call)
  | go

section Machine

variable {σ α : Type} (r : Ring) (g : Gauge σ) (formula : Nat → Nat → Option Nat) (M : System σ α)

/-- The first load of a call. -/
def Call.first : Call → Look
  | .len => .lenTail
  | .isEmpty => .emptyHead
  | .isFull => .fullTail

/-- A call returns its answer. -/
def Watched.say (w : Watched σ) (said : Said) : Watched σ :=
  { w with look := .idle, log := (said, w.counts) :: w.log }

/-- One load of the caller; `formula` is how the queue computes its length. -/
def watchGo (w : Watched σ) : Option (Watched σ) :=
  match w.look with
  | .idle => none
  | .lenTail => some { w with look := .lenHead (g.tail w.queue) }
  | .lenHead tail => some { w with look := .lenAgain tail (g.head w.queue) }
  | .lenAgain tail head =>
    if g.tail w.queue = tail then some (w.say (.len (formula head tail)))
    else some { w with look := .lenTail }
  | .emptyHead => some { w with look := .emptyTail (g.head w.queue) }
  | .emptyTail head => some (w.say (.isEmpty (g.tail w.queue = head)))
  | .fullTail => some { w with look := .fullHead (g.tail w.queue) }
  | .fullHead tail => some (w.say (.isFull (r.addLap (g.head w.queue) = tail)))

/-- The queue takes a step, or the caller does. -/
def watchStep (w : Watched σ) : WatchAct α → Option (Watched σ)
  | .act a => (M.step w.queue a).map fun q => { w with queue := q, counts := g.count q :: w.counts }
  | .call c =>
    if w.look = .idle then
      some { w with look := c.first, start := g.pushed w.queue, counts := [g.count w.queue] }
    else none
  | .go => watchGo r g formula w

/-- The queue of `M` and a caller. -/
def watched : System (Watched σ) (WatchAct α) where
  init w := M.init w.queue ∧ w.look = .idle ∧ w.log = []
  step := watchStep r g formula M

/-- By how much less than a full wrap the tail may move during the call. -/
def Look.slack : Look → Nat
  | .idle | .lenTail | .lenHead _ | .lenAgain _ _ => 0
  | .emptyHead | .emptyTail _ | .fullTail | .fullHead _ => r.cap

/-- The condition of the queue, and the tail has moved by less than a full wrap, less `slack`,
during the call. -/
def watchOk (slack : Look → Nat) (ok : σ → α → Prop) (w : Watched σ) : WatchAct α → Prop
  | .act a => ok w.queue a
  | .call _ => True
  | .go => g.pushed w.queue + slack w.look < w.start + r.period

end Machine

/-- An answer is true of some instant of the call. -/
def Said.Sound (cap : Nat) (counts : List Nat) : Said → Prop
  | .len n => ∃ m ∈ counts, n = some m ∧ m ≤ cap
  | .isEmpty b => b = true → 0 ∈ counts
  | .isFull b => b = true → cap ∈ counts

/-! ## What the caller knows -/

section Invariant

variable {σ α : Type} {r : Ring} {g : Gauge σ} {formula : Nat → Nat → Option Nat} {M : System σ α}
  {ok : σ → α → Prop} {w w' : Watched σ}

/-- The words are those of the numbers, at most one lap apart. -/
structure Gauge.Fits (r : Ring) (g : Gauge σ) (s : σ) : Prop where
  head : g.head s = r.enc (g.claimed s)
  tail : g.tail s = r.enc (g.pushed s)
  le : g.claimed s ≤ g.pushed s
  room : g.pushed s ≤ g.claimed s + r.cap

/-- At an instant of the call the head had number `h` and the tail number `p`. -/
structure Seen (r : Ring) (start now : Nat) (counts : List Nat) (h p : Nat) : Prop where
  le : h ≤ p
  room : p ≤ h + r.cap
  since : start ≤ p
  now : p ≤ now
  count : p - h ∈ counts

/-- The tail `tail` was found at an instant of the call. -/
def SeenTail (r : Ring) (start now tail k : Nat) : Prop := tail = r.enc k ∧ start ≤ k ∧ k ≤ now

/-- What the loaded words say about instants of the call. -/
def Look.Fits (r : Ring) (start now : Nat) (counts : List Nat) : Look → Prop
  | .idle | .lenTail | .emptyHead | .fullTail => True
  | .lenHead tail | .fullHead tail => ∃ k, SeenTail r start now tail k
  | .lenAgain tail head => ∃ k h p, SeenTail r start p tail k ∧ head = r.enc h ∧
      Seen r start now counts h p
  | .emptyTail head => ∃ h p, head = r.enc h ∧ Seen r start now counts h p

/-- The words are those of the queue, and every answer is sound. -/
structure WatchInv (r : Ring) (g : Gauge σ) (w : Watched σ) : Prop where
  gauge : g.Fits r w.queue
  look : w.look ≠ .idle → w.start ≤ g.pushed w.queue ∧ g.count w.queue ∈ w.counts ∧
    w.look.Fits r w.start (g.pushed w.queue) w.counts
  log : ∀ p ∈ w.log, p.1.Sound r.cap p.2

variable {counts : List Nat}

theorem Seen.mono {start now now' h p n : Nat}
    (hs : Seen r start now counts h p) (hle : now ≤ now') : Seen r start now' (n :: counts) h p :=
  ⟨hs.le, hs.room, hs.since, hs.now.trans hle, List.mem_cons_of_mem _ hs.count⟩

/-- What a call has seen stays true of its instants. -/
theorem Look.Fits.mono {start now now' n : Nat} {look : Look}
    (h : look.Fits r start now counts) (hle : now ≤ now') :
    look.Fits r start now' (n :: counts) := by
  cases look with
  | idle | lenTail | emptyHead | fullTail => trivial
  | lenHead tail | fullHead tail =>
    obtain ⟨k, htail, hk, hnow⟩ := h
    exact ⟨k, htail, hk, hnow.trans hle⟩
  | lenAgain tail head =>
    obtain ⟨k, h', p, htail, hhead, hseen⟩ := h
    exact ⟨k, h', p, htail, hhead, hseen.mono hle⟩
  | emptyTail head =>
    obtain ⟨h', p, hhead, hseen⟩ := h
    exact ⟨h', p, hhead, hseen.mono hle⟩

/-- A step of the queue is one more instant of the call. -/
theorem WatchInv.act {q : σ} (h : WatchInv r g w) (hgauge : g.Fits r q)
    (hpushed : g.pushed w.queue ≤ g.pushed q) :
    WatchInv r g { w with queue := q, counts := g.count q :: w.counts } where
  gauge := hgauge
  look hlook := by
    obtain ⟨hstart, _, hfits⟩ := h.look hlook
    exact ⟨hstart.trans hpushed, List.mem_cons_self .., hfits.mono hpushed⟩
  log := h.log

theorem WatchInv.call {c : Call} (h : WatchInv r g w) :
    WatchInv r g
      { w with look := c.first, start := g.pushed w.queue, counts := [g.count w.queue] } where
  gauge := h.gauge
  look _ := by
    refine ⟨Nat.le_refl _, List.mem_cons_self .., ?_⟩
    cases c <;> trivial
  log := h.log

/-- The caller has loaded a word and goes on. -/
theorem WatchInv.setLook {look : Look} (h : WatchInv r g w) (hlook : w.look ≠ .idle)
    (hfits : look.Fits r w.start (g.pushed w.queue) w.counts) :
    WatchInv r g { w with look := look } where
  gauge := h.gauge
  look _ := ⟨(h.look hlook).1, (h.look hlook).2.1, hfits⟩
  log := h.log

theorem WatchInv.say {said : Said} (h : WatchInv r g w) (hsaid : said.Sound r.cap w.counts) :
    WatchInv r g (w.say said) where
  gauge := h.gauge
  look hlook := absurd rfl hlook
  log p hp := by
    rcases List.mem_cons.mp hp with rfl | hp
    · exact hsaid
    · exact h.log p hp

/-- **Head and tail are those of one instant** if the tail was the same before and after. -/
theorem len_sound {start now tail k h p : Nat}
    (hformula : ∀ h t, h ≤ t → t ≤ h + r.cap → formula (r.enc h) (r.enc t) = some (t - h))
    (htail : SeenTail r start p tail k) (hseen : Seen r start now counts h p)
    (hwrap : now < start + r.period) (hsame : r.enc now = tail) :
    (Said.len (formula (r.enc h) tail)).Sound r.cap counts := by
  obtain ⟨htail, hk, hkp⟩ := htail
  have hnow := hseen.now
  have heq : k = now := Ring.enc_inj (by rw [hsame, htail]) (by omega) (by omega)
  obtain rfl : k = p := by omega
  have hroom := hseen.room
  refine ⟨k - h, hseen.count, ?_, by omega⟩
  rw [htail, hformula h k hseen.le hroom]

/-- A tail that is still at the head of an earlier instant was there at that instant. -/
theorem empty_sound {start now h p : Nat}
    (hseen : Seen r start now counts h p) (hwrap : now + r.cap < start + r.period)
    (hsame : r.enc now = r.enc h) : 0 ∈ counts := by
  obtain ⟨hle, hroom, hsince, hnow, hcount⟩ := hseen
  have heq : h = now := Ring.enc_inj hsame.symm (by omega) (by omega)
  have hzero : p - h = 0 := by omega
  rwa [hzero] at hcount

/-- **A head one lap behind an earlier tail is really there**, and then the queue is full. -/
theorem full_sound {s : σ} {start tail k : Nat} (hgauge : g.Fits r s)
    (hcount : g.count s ∈ counts) (htail : SeenTail r start (g.pushed s) tail k)
    (hwrap : g.pushed s + r.cap < start + r.period) (hfull : r.addLap (g.head s) = tail) :
    r.cap ∈ counts := by
  obtain ⟨rfl, hk, hnow⟩ := htail
  have hle := hgauge.le
  have hroom := hgauge.room
  rw [hgauge.head, Ring.addLap_enc] at hfull
  have heq : k = g.claimed s + r.cap := Ring.enc_inj hfull.symm (by omega) (by omega)
  have hcap : g.count s = r.cap := by
    rw [Gauge.count]
    omega
  rwa [hcap] at hcount

/-- A step of the call. -/
theorem WatchInv.go (h : WatchInv r g w)
    (hformula : ∀ h t, h ≤ t → t ≤ h + r.cap → formula (r.enc h) (r.enc t) = some (t - h))
    (hwrap : g.pushed w.queue + w.look.slack r < w.start + r.period)
    (hstep : watchGo r g formula w = some w') : WatchInv r g w' := by
  have hgauge := h.gauge
  have hlook := h.look
  cases hpc : w.look with
  | idle => simp [watchGo, hpc] at hstep
  | lenTail | fullTail =>
    simp only [watchGo, hpc] at hstep
    cases hstep
    have hstart := (hlook (by rw [hpc]; nofun)).1
    exact h.setLook (by rw [hpc]; nofun) ⟨_, hgauge.tail, hstart, Nat.le_refl _⟩
  | lenHead tail =>
    simp only [watchGo, hpc] at hstep
    cases hstep
    obtain ⟨hstart, hcount, hfits⟩ := hlook (by rw [hpc]; nofun)
    rw [hpc] at hfits
    obtain ⟨k, htail⟩ := hfits
    exact h.setLook (by rw [hpc]; nofun)
      ⟨k, _, _, htail, hgauge.head, hgauge.le, hgauge.room, hstart, Nat.le_refl _, hcount⟩
  | lenAgain tail head =>
    simp only [watchGo, hpc] at hstep
    obtain ⟨hstart, hcount, hfits⟩ := hlook (by rw [hpc]; nofun)
    rw [hpc] at hfits hwrap
    obtain ⟨k, h', p, htail, rfl, hseen⟩ := hfits
    split_ifs at hstep with hsame
    · cases hstep
      exact h.say (len_sound hformula htail hseen hwrap (hgauge.tail.symm.trans hsame))
    · cases hstep
      exact h.setLook (by rw [hpc]; nofun) trivial
  | emptyHead =>
    simp only [watchGo, hpc] at hstep
    cases hstep
    obtain ⟨hstart, hcount, _⟩ := hlook (by rw [hpc]; nofun)
    exact h.setLook (by rw [hpc]; nofun)
      ⟨_, _, hgauge.head, hgauge.le, hgauge.room, hstart, Nat.le_refl _, hcount⟩
  | emptyTail head =>
    simp only [watchGo, hpc] at hstep
    cases hstep
    obtain ⟨hstart, hcount, hfits⟩ := hlook (by rw [hpc]; nofun)
    rw [hpc] at hfits hwrap
    obtain ⟨h', p, rfl, hseen⟩ := hfits
    exact h.say fun hsame =>
      empty_sound hseen hwrap (hgauge.tail.symm.trans (of_decide_eq_true hsame))
  | fullHead tail =>
    simp only [watchGo, hpc] at hstep
    cases hstep
    obtain ⟨hstart, hcount, hfits⟩ := hlook (by rw [hpc]; nofun)
    rw [hpc] at hfits hwrap
    obtain ⟨k, htail⟩ := hfits
    exact h.say fun hfull => full_sound hgauge hcount htail hwrap (of_decide_eq_true hfull)

/-! ## Runs -/

/-- The caller does not disturb the queue. -/
theorem reach_queue {slack : Look → Nat}
    (h : Reach (watched r g formula M) (watchOk r g slack ok) w) : Reach M ok w.queue := by
  refine h.invariant (P := fun w => Reach M ok w.queue) ?_ ?_
  · rintro w ⟨hinit, _⟩
    exact .init hinit
  · intro w a w' hw hok hstep
    cases a with
    | act a =>
      obtain ⟨q, hq, rfl⟩ := Option.map_eq_some_iff.mp hstep
      exact .step a hw hok hq
    | call c =>
      simp only [watched, watchStep] at hstep
      split_ifs at hstep
      cases hstep
      exact hw
    | go =>
      simp only [watched, watchStep, watchGo] at hstep
      cases hpc : w.look with
      | idle => simp [hpc] at hstep
      | lenAgain tail head =>
        simp only [hpc] at hstep
        split_ifs at hstep <;> cases hstep <;> exact hw
      | lenTail | lenHead | emptyHead | emptyTail | fullTail | fullHead =>
        simp only [hpc] at hstep
        cases hstep
        exact hw

/-- **Every answer fits, in every run.** -/
theorem watchInv_of_reach
    (hformula : ∀ h t, h ≤ t → t ≤ h + r.cap → formula (r.enc h) (r.enc t) = some (t - h))
    (hgauge : ∀ s, Reach M ok s → g.Fits r s)
    (hpushed : ∀ s a t, M.step s a = some t → g.pushed s ≤ g.pushed t)
    (h : Reach (watched r g formula M) (watchOk r g (Look.slack r) ok) w) : WatchInv r g w := by
  induction h with
  | init hw =>
    obtain ⟨hinit, hidle, hlog⟩ := hw
    exact ⟨hgauge _ (.init hinit), fun hlook => absurd hidle hlook, by rw [hlog]; nofun⟩
  | step a hw hok hstep ih =>
    cases a with
    | act a =>
      obtain ⟨q, hq, rfl⟩ := Option.map_eq_some_iff.mp hstep
      exact ih.act (hgauge q (.step a (reach_queue hw) hok hq)) (hpushed _ a q hq)
    | call c =>
      simp only [watched, watchStep] at hstep
      split_ifs at hstep
      cases hstep
      exact ih.call
    | go => exact ih.go hformula hok hstep

end Invariant

/-! ## The three queues -/

namespace Mpmc

variable {r : Ring} {ι V : Type}

/-- The words of an `ArrayQueue`. -/
def gauge : Gauge (St ι V) := ⟨St.head, St.tail, St.claimed, fun s => s.pushed.length⟩

theorem Inv.gauge {s : St ι V} (h : Inv r s) : Mpmc.gauge.Fits r s :=
  ⟨h.head, h.tail, h.cells.le, h.cells.room⟩

/-- No message is taken back. -/
theorem pushed_le_of_step [DecidableEq ι] {s t : St ι V} {a : Act ι V}
    (hstep : step r s a = some t) : s.pushed.length ≤ t.pushed.length := by
  cases a with
  | push i v one | pop i | select i =>
    simp only [step] at hstep
    split_ifs at hstep
    cases hstep
    exact Nat.le_refl _
  | redeem i =>
    simp only [step] at hstep
    split at hstep
    · cases hstep
      exact Nat.le_refl _
    · cases hstep
  | go i choice =>
    cases goStep_of_stepGo hstep with
    | claim v one k hpc =>
      show s.pushed.length ≤ (s.pushed ++ [v]).length
      rw [List.length_append]
      exact Nat.le_add_right ..
    | load | keep | enter | refuse | giveUp | write | publish | popLoad | popEnter | popKeep
    | miss | take | read | release => exact Nat.le_refl _

end Mpmc

namespace Mpsc

variable {r : Ring} {ι V : Type}

/-- The words of an `ArrayQueueMpsc`. -/
def gauge (r : Ring) : Gauge (St ι V) :=
  ⟨fun s => low r.word s.recv, fun s => low r.word s.sender, St.claimed, fun s => s.pushed.length⟩

theorem Inv.gauge {s : St ι V} {hc tc : Nat} (h : Inv r hc tc s) : (Mpsc.gauge r).Fits r s :=
  ⟨h.recv_low, h.sender_low, h.length_le.1, h.length_le.2⟩

/-- The consumer pushes nothing. -/
theorem pushed_of_stepRx {s t : St ι V} (hstep : stepRx r s = some t) : t.pushed = s.pushed := by
  unfold stepRx at hstep
  cases hpc : s.rx with
  | idle => simp [hpc] at hstep
  | load mode | loadTail mode head | wait mode tok target =>
    simp only [hpc] at hstep
    split_ifs at hstep <;> cases hstep <;> rfl
  | read tok | store tok msg => simp only [hpc] at hstep; cases hstep; rfl

/-- No message is taken back. -/
theorem pushed_le_of_step [DecidableEq ι] {s t : St ι V} {a : Act ι V}
    (hstep : step r s a = some t) : s.pushed.length ≤ t.pushed.length := by
  cases a with
  | push i v one | start mode | redeem tok =>
    simp only [step] at hstep
    split_ifs at hstep
    cases hstep
    exact Nat.le_refl _
  | goTx i choice =>
    cases txStep_of_stepTx hstep with
    | claim v one headCached k hpc =>
      show s.pushed.length ≤ (s.pushed ++ [v]).length
      rw [List.length_append]
      exact Nat.le_add_right ..
    | look | room | refuse | renew | giveUp | write | publish => exact Nat.le_refl _
  | goRx => exact (congrArg List.length (pushed_of_stepRx hstep)).ge

end Mpsc

namespace Spsc

variable {r : Ring} {V : Type}

/-- The words of an `ArrayQueueSpsc`. -/
def gauge (r : Ring) : Gauge (St V) :=
  ⟨fun s => low r.word s.recv, fun s => low r.word s.sender, St.claimed, fun s => s.pushed.length⟩

theorem Inv.gauge {s : St V} {hc tc : Nat} (h : Inv r hc tc s) : (Spsc.gauge r).Fits r s :=
  ⟨h.recv_low, h.sender_low, h.length_le.1, h.length_le.2⟩

theorem pushed_found (s : St V) (mode : Mode) (tok : Token) :
    (s.found mode tok).pushed = s.pushed := by
  unfold St.found
  split_ifs <;> rfl

/-- The consumer pushes nothing. -/
theorem pushed_of_stepRx {s t : St V} (hstep : stepRx r s = some t) : t.pushed = s.pushed := by
  unfold stepRx at hstep
  cases hpc : s.rx with
  | idle => simp [hpc] at hstep
  | load mode | loadTail mode head =>
    simp only [hpc] at hstep
    split_ifs at hstep <;> cases hstep <;> first | rfl | exact pushed_found ..
  | read tok | store tok msg => simp only [hpc] at hstep; cases hstep; rfl

/-- No message is taken back. -/
theorem pushed_le_of_step {s t : St V} {a : Act V} (hstep : step r s a = some t) :
    s.pushed.length ≤ t.pushed.length := by
  cases a with
  | push v | start mode | redeem tok =>
    simp only [step] at hstep
    split_ifs at hstep
    cases hstep
    exact Nat.le_refl _
  | goTx =>
    simp only [step, stepTx] at hstep
    cases hpc : s.tx with
    | idle => simp [hpc] at hstep
    | load v | loadHead v headCached tail =>
      simp only [hpc] at hstep
      split_ifs at hstep <;> cases hstep <;> exact Nat.le_refl _
    | write v headCached tail => simp only [hpc] at hstep; cases hstep; exact Nat.le_refl _
    | store v headCached tail =>
      simp only [hpc] at hstep
      cases hstep
      show s.pushed.length ≤ (s.pushed ++ [v]).length
      rw [List.length_append]
      exact Nat.le_add_right ..
  | goRx => exact (congrArg List.length (pushed_of_stepRx hstep)).ge

end Spsc

section Queues

variable {ι V : Type} [DecidableEq ι]

/-- **Every answer is true of some instant of its call**, in the three queues and for every
capacity, while the tail moves by less than a full wrap during `len`, and by less than a full wrap,
less one lap, during `is_empty` and `is_full`. -/
theorem snapshot_true :
    (∀ (r : Ring) (w : Watched (Mpmc.St ι V)),
      Reach (watched r Mpmc.gauge (dropLen r) (Mpmc.system r))
        (watchOk r Mpmc.gauge (Look.slack r) (Mpmc.wrapOk r 0)) w →
      ∀ p ∈ w.log, p.1.Sound r.cap p.2) ∧
    (∀ (cap : Nat) (hpos : 0 < cap) (hlt : cap < 2 ^ 31) (w : Watched (Mpsc.St ι V)),
      Reach (watched (ring cap hpos hlt) (Mpsc.gauge (ring cap hpos hlt))
          (lenOf (ring cap hpos hlt)) (Mpsc.system (ring cap hpos hlt)))
        (watchOk (ring cap hpos hlt) (Mpsc.gauge (ring cap hpos hlt))
          (Look.slack (ring cap hpos hlt))
          fun s a => Mpsc.wrapOk (ring cap hpos hlt) 0 s a ∧ Mpsc.tokenOk s a) w →
      ∀ p ∈ w.log, p.1.Sound cap p.2) ∧
    ∀ (cap : Nat) (hpos : 0 < cap) (hlt : cap < 2 ^ 31) (w : Watched (Spsc.St V)),
      Reach (watched (ring cap hpos hlt) (Spsc.gauge (ring cap hpos hlt))
          (lenOf (ring cap hpos hlt)) (Spsc.system (ring cap hpos hlt)))
        (watchOk (ring cap hpos hlt) (Spsc.gauge (ring cap hpos hlt))
          (Look.slack (ring cap hpos hlt)) Spsc.tokenOk) w →
      ∀ p ∈ w.log, p.1.Sound cap p.2 := by
  refine ⟨fun r w hw => ?_, fun cap hpos hlt w hw => ?_, fun cap hpos hlt w hw => ?_⟩
  · refine (watchInv_of_reach (fun _ _ => dropLen_enc) ?_ ?_ hw).log
    · intro s hs
      exact (Mpmc.inv_of_reach hs).gauge
    · intro s a t hstep
      exact Mpmc.pushed_le_of_step hstep
  · refine (watchInv_of_reach (fun _ _ => lenOf_enc) ?_ ?_ hw).log
    · intro s hs
      obtain ⟨hc, tc, hinv⟩ := Mpsc.inv_of_reach hs
      exact hinv.gauge
    · intro s a t hstep
      exact Mpsc.pushed_le_of_step hstep
  · refine (watchInv_of_reach (fun _ _ => lenOf_enc) ?_ ?_ hw).log
    · intro s hs
      obtain ⟨hc, tc, hinv⟩ := Spsc.inv_of_reach hs
      exact hinv.gauge
    · intro s a t hstep
      exact Spsc.pushed_le_of_step hstep

end Queues

instance {σ α : Type} (r : Ring) (g : Gauge σ) (slack : Look → Nat) (ok : σ → α → Prop)
    [∀ s a, Decidable (ok s a)] (w : Watched σ) :
    (a : WatchAct α) → Decidable (watchOk r g slack ok w a)
  | .act a => inferInstanceAs (Decidable (ok w.queue a))
  | .call _ => instDecidableTrue
  | .go => inferInstanceAs (Decidable (_ < _))

/-- A queue that was never used, and nobody looks at it. -/
def Watched.new (V : Type) : Watched (Spsc.St V) := ⟨Spsc.St.new, .idle, 0, [], []⟩

/-- `len` loads the tail, a message is pushed, and `len` starts again; `is_empty` and `is_full`
follow. -/
theorem snapshot_true_again : ∃ w : Watched (Spsc.St Nat),
    Reach (watched ringTwo (Spsc.gauge ringTwo) (lenOf ringTwo) (Spsc.system ringTwo))
        (watchOk ringTwo (Spsc.gauge ringTwo) (Look.slack ringTwo) Spsc.tokenOk) w ∧
      (∀ p ∈ w.log, p.1.Sound 2 p.2) ∧
      w.log.map Prod.fst = [.isFull false, .isEmpty false, .len (some 1)] := by
  have hnew : Reach
      (watched ringTwo (Spsc.gauge ringTwo) (lenOf ringTwo) (Spsc.system (V := Nat) ringTwo))
      (watchOk ringTwo (Spsc.gauge ringTwo) (Look.slack ringTwo) Spsc.tokenOk)
      (Watched.new Nat) := .init ⟨rfl, rfl, rfl⟩
  obtain ⟨w, hw, htest⟩ := hnew.exists_of_run
    [.call .len, .go, .act (.push 7), .act .goTx, .act .goTx, .act .goTx, .go, .go, .go, .go, .go,
      .call .isEmpty, .go, .go, .call .isFull, .go, .go]
    (fun w => w.log.map Prod.fst = [.isFull false, .isEmpty false, .len (some 1)])
    (by decide +kernel)
  exact ⟨w, hw, (snapshot_true (ι := Unit)).2.2 2 (by decide) (by decide) w hw,
    htest⟩

/-! ## A call across a full wrap, less one lap

`is_full` is stopped after it has loaded the tail. The producer and the consumer pass one message
after the other, so that the queue never holds more than one, until the head has come around to one
lap behind that tail. -/

section Late

variable {r : Ring} {tx tx' : Spsc.TxPc Unit} {rx rx' : Spsc.RxPc Unit} {n m n' m' : Nat}
  {w : Watched (Spsc.St Unit)} {q : Spsc.St Unit} {a : Spsc.Act Unit}

/-- `is_full` has loaded the tail of a full queue and sleeps. -/
structure Late (r : Ring) (tx : Spsc.TxPc Unit) (rx : Spsc.RxPc Unit) (n m : Nat)
    (w : Watched (Spsc.St Unit)) : Prop where
  reach : Reach (watched r (Spsc.gauge r) (lenOf r) (Spsc.system r))
    (watchOk r (Spsc.gauge r) (fun _ => 0) Spsc.tokenOk) w
  look : w.look = .fullHead (r.enc r.cap)
  start : w.start = r.cap
  counts : ∀ c ∈ w.counts, c ≤ 1
  tx : w.queue.tx = tx
  rx : w.queue.rx = rx
  tokens : w.queue.tokens = []
  pushed : w.queue.pushed.length = n
  claimed : w.queue.claimed = m

/-- A step of the queue while the call is stopped. -/
theorem Late.act (h : Late r tx rx n m w) (hstep : Spsc.step r w.queue a = some q)
    (htx : q.tx = tx') (hrx : q.rx = rx') (htokens : q.tokens = []) (hn : q.pushed.length = n')
    (hm : q.claimed = m') (hle : n' ≤ m' + 1) : ∃ w', Late r tx' rx' n' m' w' := by
  have hok : Spsc.tokenOk w.queue a := by cases a <;> first | exact h.tokens | exact trivial
  refine ⟨{ w with queue := q, counts := (Spsc.gauge r).count q :: w.counts },
    .step (.act a) h.reach hok (Option.map_eq_some_iff.mpr ⟨q, hstep, rfl⟩), h.look, h.start, ?_,
    htx, hrx, htokens, hn, hm⟩
  intro c hc
  rcases List.mem_cons.mp hc with rfl | hc
  · show q.pushed.length - q.claimed ≤ 1
    omega
  · exact h.counts c hc

/-- The producer finds room. -/
theorem Late.write (h : Late r .idle .idle n n w) :
    ∃ headCached tail w', Late r (.write () headCached tail) .idle n n w' := by
  have hpush : Spsc.step r w.queue (.push ()) = some { w.queue with tx := .load () } := by
    simp [Spsc.step, h.tx]
  obtain ⟨w₁, h₁⟩ : ∃ w', Late r (.load ()) .idle n n w' :=
    h.act hpush rfl h.rx h.tokens h.pushed h.claimed (by omega)
  by_cases hcopy : r.addLap (high r.word w₁.queue.sender) = low r.word w₁.queue.sender
  · have hload : Spsc.step r w₁.queue .goTx = some { w₁.queue with
        tx := .loadHead () (high r.word w₁.queue.sender) (low r.word w₁.queue.sender) } := by
      simp [Spsc.step, Spsc.stepTx, h₁.tx, hcopy]
    obtain ⟨w₂, h₂⟩ := h₁.act hload rfl h₁.rx h₁.tokens h₁.pushed h₁.claimed (by omega)
    -- the copy is one lap old, the head is not
    obtain ⟨hc, tc, hinv⟩ := Spsc.inv_of_reach (reach_queue h₂.reach)
    have hfits := hinv.tx
    rw [h₂.tx] at hfits
    obtain ⟨hcopy', _, hfull⟩ := hfits
    have hne : low r.word w₂.queue.recv ≠ high r.word w₁.queue.sender := by
      rw [hinv.recv_low, hcopy']
      intro heq
      have := hinv.claimed_eq_copy.mp heq
      have := r.cap_pos
      have := h₂.pushed
      have := h₂.claimed
      omega
    have hlook : Spsc.step r w₂.queue .goTx = some { w₂.queue with
        tx := .write () (low r.word w₂.queue.recv) (low r.word w₁.queue.sender) } := by
      simp [Spsc.step, Spsc.stepTx, h₂.tx, hne]
    exact ⟨_, _, h₂.act hlook rfl h₂.rx h₂.tokens h₂.pushed h₂.claimed (by omega)⟩
  · have hload : Spsc.step r w₁.queue .goTx = some { w₁.queue with
        tx := .write () (high r.word w₁.queue.sender) (low r.word w₁.queue.sender) } := by
      simp [Spsc.step, Spsc.stepTx, h₁.tx, hcopy]
    exact ⟨_, _, h₁.act hload rfl h₁.rx h₁.tokens h₁.pushed h₁.claimed (by omega)⟩

/-- A push ends. -/
theorem Late.push {headCached tail : Nat} (h : Late r (.write () headCached tail) .idle n n w) :
    ∃ w', Late r .idle .idle (n + 1) n w' := by
  have hwrite : Spsc.step r w.queue .goTx = some { w.queue with
      slot := Function.update w.queue.slot (r.index tail) (some ())
      tx := .store () headCached tail } := by
    simp [Spsc.step, Spsc.stepTx, h.tx]
  obtain ⟨w₁, h₁⟩ : ∃ w', Late r (.store () headCached tail) .idle n n w' :=
    h.act hwrite rfl h.rx h.tokens h.pushed h.claimed (by omega)
  have hstore : Spsc.step r w₁.queue .goTx = some { w₁.queue with
      sender := pack r.word headCached (r.next tail)
      tx := .idle
      pushed := w₁.queue.pushed ++ [()] } := by
    simp [Spsc.step, Spsc.stepTx, h₁.tx]
  exact h₁.act hstore rfl h₁.rx h₁.tokens (by simp [h₁.pushed]) h₁.claimed (by omega)

/-- The consumer finds the message. -/
theorem Late.read (h : Late r .idle .idle (n + 1) n w) :
    ∃ tok w', Late r .idle (.read tok) (n + 1) n w' := by
  have hstart : Spsc.step r w.queue (.start .pop) = some { w.queue with rx := .load .pop } := by
    simp [Spsc.step, h.rx]
  obtain ⟨w₁, h₁⟩ : ∃ w', Late r .idle (.load .pop) (n + 1) n w' :=
    h.act hstart h.tx rfl h.tokens h.pushed h.claimed (by omega)
  by_cases hcopy : high r.word w₁.queue.recv = low r.word w₁.queue.recv
  · have hload : Spsc.step r w₁.queue .goRx = some { w₁.queue with
        rx := .loadTail .pop (low r.word w₁.queue.recv) } := by
      simp [Spsc.step, Spsc.stepRx, h₁.rx, hcopy]
    obtain ⟨w₂, h₂⟩ := h₁.act hload h₁.tx rfl h₁.tokens h₁.pushed h₁.claimed (by omega)
    obtain ⟨hc, tc, hinv⟩ := Spsc.inv_of_reach (reach_queue h₂.reach)
    have hfits := hinv.rx
    rw [h₂.rx] at hfits
    obtain ⟨_, hhead, _⟩ := hfits
    have hne : low r.word w₁.queue.recv ≠ low r.word w₂.queue.sender := by
      rw [hhead, hinv.sender_low]
      intro heq
      have := hinv.tail_eq.mp heq
      have := h₂.pushed
      have := h₂.claimed
      omega
    have hfound : Spsc.step r w₂.queue .goRx = some { w₂.queue with
        rx := .read (readToken r (low r.word w₁.queue.recv) (low r.word w₂.queue.sender)
          w₂.queue.claimed) } := by
      simp [Spsc.step, Spsc.stepRx, h₂.rx, hne, Spsc.found_of_ne]
    exact ⟨_, h₂.act hfound h₂.tx rfl h₂.tokens h₂.pushed h₂.claimed (by omega)⟩
  · have hfound : Spsc.step r w₁.queue .goRx = some { w₁.queue with
        rx := .read (readToken r (low r.word w₁.queue.recv) (high r.word w₁.queue.recv)
          w₁.queue.claimed) } := by
      simp [Spsc.step, Spsc.stepRx, h₁.rx, hcopy, Spsc.found_of_ne]
    exact ⟨_, h₁.act hfound h₁.tx rfl h₁.tokens h₁.pushed h₁.claimed (by omega)⟩

/-- A pop ends. -/
theorem Late.pop {tok : Token} (h : Late r .idle (.read tok) (n + 1) n w) :
    ∃ w', Late r .idle .idle (n + 1) (n + 1) w' := by
  have hread : Spsc.step r w.queue .goRx = some { w.queue with
      rx := .store tok (w.queue.slot tok.index) } := by
    simp [Spsc.step, Spsc.stepRx, h.rx]
  obtain ⟨w₁, h₁⟩ := h.act hread h.tx rfl h.tokens h.pushed h.claimed (by omega)
  obtain ⟨hc, tc, hinv⟩ := Spsc.inv_of_reach (reach_queue h₁.reach)
  have hfits := hinv.rx
  rw [h₁.rx] at hfits
  have hk : tok.k + 1 = n + 1 := by rw [hfits.2.1.k, h₁.claimed]
  have hstore : Spsc.step r w₁.queue .goRx = some { w₁.queue with
      recv := tok.stamp
      rx := .idle
      claimed := tok.k + 1
      returned := w₁.queue.returned ++ [(tok.k, w.queue.slot tok.index)] } := by
    simp [Spsc.step, Spsc.stepRx, h₁.rx]
  exact h₁.act hstore h₁.tx rfl h₁.tokens h₁.pushed hk (by omega)

theorem Late.round (h : Late r .idle .idle n n w) :
    ∃ w', Late r .idle .idle (n + 1) (n + 1) w' := by
  obtain ⟨headCached, tail, w₁, h₁⟩ := h.write
  obtain ⟨w₂, h₂⟩ := h₁.push
  obtain ⟨tok, w₃, h₃⟩ := h₂.read
  exact h₃.pop

/-- The head has come around to one lap behind the loaded tail. -/
theorem Late.say (h : Late r .idle .idle r.period r.period w) :
    ∃ (w' : Watched (Spsc.St Unit)) (counts : List Nat),
      Reach (watched r (Spsc.gauge r) (lenOf r) (Spsc.system r))
        (watchOk r (Spsc.gauge r) (fun _ => 0) Spsc.tokenOk) w' ∧
      (Said.isFull true, counts) ∈ w'.log ∧ ∀ c ∈ counts, c ≤ 1 := by
  obtain ⟨hc, tc, hinv⟩ := Spsc.inv_of_reach (reach_queue h.reach)
  have hhead : r.addLap ((Spsc.gauge r).head w.queue) = r.enc r.cap := by
    show r.addLap (low r.word w.queue.recv) = r.enc r.cap
    rw [hinv.recv_low, h.claimed, Ring.addLap_enc, Nat.add_comm, Ring.enc_add_period]
  have hgo : watchGo r (Spsc.gauge r) (lenOf r) w = some (w.say (.isFull true)) := by
    simp [watchGo, h.look, hhead]
  have hwrap : w.queue.pushed.length + 0 < w.start + r.period := by
    have := r.cap_pos
    have := h.pushed
    have := h.start
    omega
  exact ⟨_, w.counts, .step .go h.reach hwrap hgo, List.mem_cons_self .., h.counts⟩

/-- **`is_full` can say true of a queue that is nowhere near full**: at every instant of the call it
held at most one message and its capacity is two, and the tail has moved by less than a full
wrap. -/
theorem isFull_late : ∃ (w : Watched (Spsc.St Unit)) (counts : List Nat),
    Reach (watched ringTwo (Spsc.gauge ringTwo) (lenOf ringTwo) (Spsc.system ringTwo))
        (watchOk ringTwo (Spsc.gauge ringTwo) (fun _ => 0) Spsc.tokenOk) w ∧
      (Said.isFull true, counts) ∈ w.log ∧ ∀ c ∈ counts, c ≤ 1 := by
  have hnew : Reach
      (watched ringTwo (Spsc.gauge ringTwo) (lenOf ringTwo) (Spsc.system (V := Unit) ringTwo))
      (watchOk ringTwo (Spsc.gauge ringTwo) (fun _ => 0) Spsc.tokenOk)
      (Watched.new Unit) := .init ⟨rfl, rfl, rfl⟩
  obtain ⟨w, hw, hlook, hstart, hcounts, htx, hrx, htokens, hpushed, hclaimed⟩ := hnew.exists_of_run
    [.act (.push ()), .act .goTx, .act .goTx, .act .goTx,
      .act (.start .pop), .act .goRx, .act .goRx, .act .goRx, .act .goRx,
      .act (.push ()), .act .goTx, .act .goTx, .act .goTx,
      .act (.start .pop), .act .goRx, .act .goRx, .act .goRx, .act .goRx,
      .call .isFull, .go]
    (fun w => w.look = .fullHead (ringTwo.enc 2) ∧ w.start = 2 ∧ w.counts = [0] ∧
      w.queue.tx = .idle ∧ w.queue.rx = .idle ∧ w.queue.tokens = [] ∧
      w.queue.pushed.length = 2 ∧ w.queue.claimed = 2)
    (by decide +kernel)
  have hlate : Late ringTwo .idle .idle 2 2 w :=
    ⟨hw, hlook, hstart, by rw [hcounts]; simp, htx, hrx, htokens, hpushed, hclaimed⟩
  obtain ⟨w', h'⟩ := exists_rounds (P := fun n => Late ringTwo .idle .idle n n)
    (fun _ _ h => h.round) hlate ringTwo.cap_lt_period.le
  obtain ⟨u, counts, hu, hlog, hle⟩ := h'.say
  exact ⟨u, counts, hu, hlog, hle⟩

end Late

end Crossfire.ArrayQueue
