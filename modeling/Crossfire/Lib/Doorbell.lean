import Mathlib.Logic.Basic

/-!
# One sleeper and many ringers

A thread sleeps until one of many topics is ready. Before it sleeps it clears a flag, arms
registrations that can be taken once, and looks at every topic. Who makes a topic ready goes to the
registration for it; if it is there, the ringer takes it, sets the flag and then unparks the
sleeper. A registration serves many topics, so a ringer that finds it taken leaves the sleeper to
whoever took it, and a ringer that took one for an earlier sleep may come late.

`Bell.Step` says what the two sides may do; `Inv` holds in every state of such a run
(`Inv.step`). When nobody is on the way, a sleeper without a pending unpark sleeps on topics that
are not ready (`Inv.not_ready`).

The registration for topic `t` is `on t`.
-/

set_option autoImplicit false

namespace Crossfire.Lib.Doorbell

/-- What a ringer is about to do. -/
inductive Ringer (π : Type)
  | away
  /-- It has news and has yet to look at the registration `k`. -/
  | toward (k : π)
  /-- It has taken a registration and is going to set the flag. -/
  | holds
  /-- It has set the flag and is going to unpark the sleeper. -/
  | unparks

/-- The ringer has taken nothing. -/
def Ringer.isFree {π : Type} : Ringer π → Bool
  | .away | .toward _ => true
  | .holds | .unparks => false

/-- Where the sleeper is. -/
inductive Stage
  | off
  /-- The flag is cleared; the sleeper arms, looks at the topics and parks. -/
  | listens
  /-- `park` has returned, and the flag is still to be read. -/
  | up

/-- The bell, its ringers and its sleeper. -/
structure Bell (ι π τ : Type) where
  /-- The registration is there. -/
  armed : π → Bool
  /-- The flag. -/
  rung : Bool
  /-- The park token of the sleeper. -/
  token : Bool
  stage : Stage
  ringer : ι → Ringer π
  /-- The sleeper has armed the registration since it cleared the flag. -/
  set : π → Prop
  /-- After that, the sleeper has looked at the topic and found it not ready. -/
  watched : τ → Prop
  ready : τ → Prop

/-- The flag is set, or somebody is going to set it. -/
def Bell.Coming {ι π τ : Type} (b : Bell ι π τ) : Prop :=
  b.rung = true ∨ ∃ i, b.ringer i = .holds

/-! ## Steps -/

section Steps

variable {ι π τ : Type} (on : τ → π)

/-- What a ringer may do. -/
inductive Moves (b b' : Bell ι π τ) : Ringer π → Ringer π → Prop
  | stay (r : Ringer π) (armed : b'.armed = b.armed) (rung : b'.rung = b.rung)
      (token : b'.token = b.token) : Moves b b' r r
  | start (k : π) (armed : b'.armed = b.armed) (rung : b'.rung = b.rung)
      (token : b'.token = b.token) : Moves b b' .away (.toward k)
  /-- The registration is taken. -/
  | leave (k : π) (r : Ringer π) (free : r.isFree = true) (armed : b'.armed = b.armed)
      (rung : b'.rung = b.rung) (token : b'.token = b.token)
      (gone : b.armed k = false) : Moves b b' (.toward k) r
  | take (k : π) (armed : ∀ p, p ≠ k → b'.armed p = b.armed p)
      (rung : b'.rung = b.rung) (token : b'.token = b.token) : Moves b b' (.toward k) .holds
  | ring (armed : b'.armed = b.armed) (rung : b'.rung = true) (token : b'.token = b.token) :
      Moves b b' .holds .unparks
  /-- The flag is set already. -/
  | skip (r : Ringer π) (free : r.isFree = true) (was : b.rung = true)
      (armed : b'.armed = b.armed) (rung : b'.rung = b.rung) (token : b'.token = b.token) :
      Moves b b' .holds r
  | unpark (r : Ringer π) (free : r.isFree = true) (armed : b'.armed = b.armed)
      (rung : b'.rung = b.rung) (token : b'.token = true) : Moves b b' .unparks r

/-- One step of ringer `i`: only it makes a topic ready, and then it has news. -/
structure RingerStep (b b' : Bell ι π τ) (i : ι) : Prop where
  stage : b'.stage = b.stage
  others : ∀ j, j ≠ i → b'.ringer j = b.ringer j
  set : ∀ p, b'.set p → b.set p
  watched : ∀ t, b'.watched t → b.watched t ∧ b'.set (on t)
  ready : ∀ t, b'.ready t → b.ready t ∨ b'.ringer i = .toward (on t)
  moves : Moves b b' (b.ringer i) (b'.ringer i)

/-- The ringers and the flag are as before, and no topic becomes ready. -/
structure Kept (b b' : Bell ι π τ) : Prop where
  ringer : b'.ringer = b.ringer
  rung : b'.rung = b.rung
  ready : ∀ t, b'.ready t → b.ready t

/-- One step of the sleeper. -/
inductive SleeperStep (b b' : Bell ι π τ) : Prop
  | leave (stage : b'.stage = .off)
  | clear (stage : b'.stage = .listens) (rung : b'.rung = false) (set : ∀ p, ¬ b'.set p)
      (watched : ∀ t, ¬ b'.watched t)
  /-- It arms the registration `p`, or looks at a topic, or does nothing of interest. -/
  | go (stage : b'.stage = b.stage) (kept : Kept b b') (token : b'.token = b.token)
      (armed : ∀ p, b.armed p = true → b'.armed p = true)
      (set : ∀ p, b'.set p → b.set p ∨ b'.armed p = true)
      (watched : ∀ t, b'.watched t → b'.set (on t) ∧ (b.watched t ∨ ¬ b'.ready t))
  /-- `park` returns, for whatever reason. -/
  | park (was : b.stage = .listens) (stage : b'.stage = .up) (kept : Kept b b')
      (armed : b'.armed = b.armed) (set : ∀ p, b'.set p → b.set p)
      (watched : ∀ t, b'.watched t → b'.set (on t) ∧ b.watched t)
  /-- The flag is not set. -/
  | resume (was : b.stage = .up) (stage : b'.stage = .listens) (rung : b.rung = false)
      (kept : Kept b b') (armed : b'.armed = b.armed) (set : ∀ p, b'.set p → b.set p)
      (watched : ∀ t, b'.watched t → b'.set (on t) ∧ b.watched t)

/-- A step of a ringer or of the sleeper. -/
def Bell.Step (b b' : Bell ι π τ) : Prop :=
  (∃ i, RingerStep on b b' i) ∨ SleeperStep on b b'

end Steps

/-! ## The invariant -/

section Invariant

variable {ι π τ : Type}

/-- A topic that is set rings the sleeper, or somebody is coming to ring. -/
structure Inv (on : τ → π) (b : Bell ι π τ) : Prop where
  /-- A flag that is set has its unpark pending, unless `park` has returned. -/
  rung : b.stage = .listens → b.rung = true → b.token = true ∨ ∃ i, b.ringer i = .unparks
  armed : b.stage ≠ .off → ∀ p, b.set p → b.armed p = true ∨ b.Coming
  set : b.stage ≠ .off → ∀ t, b.watched t → b.set (on t)
  watch : b.stage ≠ .off → ∀ t, b.watched t → b.ready t →
    b.Coming ∨ ∃ i, b.ringer i = .toward (on t)

variable {on : τ → π} {b b' : Bell ι π τ} {i : ι}

/-- The flag stays set, and who is going to set it sets it. -/
theorem RingerStep.coming (h : RingerStep on b b' i) (hcoming : b.Coming) : b'.Coming := by
  have hmoves := h.moves
  have hrung (hb : b.rung = true) : b'.Coming := by
    refine .inl ?_
    generalize b.ringer i = r, b'.ringer i = r' at hmoves
    cases hmoves with
    | stay _ _ rung | start _ _ rung | leave _ _ _ _ rung | take _ _ rung | skip _ _ _ _ rung
    | unpark _ _ _ rung => exact rung.trans hb
    | ring _ rung => exact rung
  rcases hcoming with hb | ⟨j, hj⟩
  · exact hrung hb
  · by_cases hji : j = i
    · subst hji
      rw [hj] at hmoves
      generalize hr : b'.ringer j = r' at hmoves
      cases hmoves with
      | stay => exact .inr ⟨j, hr⟩
      | ring _ rung => exact .inl rung
      | skip _ _ was => exact hrung was
    · exact .inr ⟨j, (h.others j hji).trans hj⟩

/-- A ringer on the way is still on the way, or the sleeper need not wait for it. -/
theorem RingerStep.toward (h : RingerStep on b b' i) (hinv : Inv on b)
    (hoff : b.stage ≠ .off) {j : ι} {t : τ} (hj : b.ringer j = .toward (on t))
    (hwatched : b.watched t) : b'.Coming ∨ ∃ k, b'.ringer k = .toward (on t) := by
  by_cases hji : j = i
  · subst hji
    have hmoves := h.moves
    rw [hj] at hmoves
    generalize hr : b'.ringer j = r' at hmoves
    cases hmoves with
    | stay => exact .inr ⟨j, hr⟩
    | take => exact .inl (.inr ⟨j, hr⟩)
    | leave _ _ _ _ _ _ gone =>
      refine .inl (h.coming ?_)
      rcases hinv.armed hoff _ (hinv.set hoff t hwatched) with harmed | hcoming
      · rw [gone] at harmed; cases harmed
      · exact hcoming
  · exact .inr ⟨j, (h.others j hji).trans hj⟩

/-- The unpark of a flag that is set stays pending. -/
theorem RingerStep.pending (h : RingerStep on b b' i)
    (hpending : b.token = true ∨ ∃ j, b.ringer j = .unparks) :
    b'.token = true ∨ ∃ j, b'.ringer j = .unparks := by
  have hmoves := h.moves
  rcases hpending with htoken | ⟨j, hj⟩
  · refine .inl ?_
    generalize b.ringer i = r, b'.ringer i = r' at hmoves
    cases hmoves with
    | stay _ _ _ token | start _ _ _ token | leave _ _ _ _ _ token | take _ _ _ token
    | ring _ _ token | skip _ _ _ _ _ token => exact token.trans htoken
    | unpark _ _ _ _ token => exact token
  · by_cases hji : j = i
    · subst hji
      rw [hj] at hmoves
      generalize hr : b'.ringer j = r' at hmoves
      cases hmoves with
      | stay => exact .inr ⟨j, hr⟩
      | unpark _ _ _ _ token => exact .inl token
    · exact .inr ⟨j, (h.others j hji).trans hj⟩

/-- A step of a ringer. -/
theorem RingerStep.inv (h : RingerStep on b b' i) (hinv : Inv on b) :
    Inv on b' := by
  have hmoves := h.moves
  have hstage := h.stage
  refine ⟨fun hlistens hrung => ?_, fun hoff p hp => ?_, fun _ t ht => (h.watched t ht).2,
    fun hoff t hwatched hready => ?_⟩
  · rw [hstage] at hlistens
    generalize hr' : b'.ringer i = r' at hmoves
    generalize b.ringer i = r at hmoves
    cases hmoves with
    | stay _ _ rung | start _ _ rung | leave _ _ _ _ rung | take _ _ rung | skip _ _ _ _ rung
    | unpark _ _ _ rung => exact h.pending (hinv.rung hlistens (rung ▸ hrung))
    | ring => exact .inr ⟨i, hr'⟩
  · rw [hstage] at hoff
    rcases hinv.armed hoff p (h.set p hp) with harmed | hcoming
    · generalize hr' : b'.ringer i = r' at hmoves
      generalize b.ringer i = r at hmoves
      cases hmoves with
      | stay _ armed | start _ armed | leave _ _ _ armed | ring armed | skip _ _ _ armed
      | unpark _ _ armed => exact .inl (armed ▸ harmed)
      | take => exact .inr (.inr ⟨i, hr'⟩)
    · exact .inr (h.coming hcoming)
  · rw [hstage] at hoff
    have hwatched' := (h.watched t hwatched).1
    rcases h.ready t hready with hold | hnews
    · rcases hinv.watch hoff t hwatched' hold with hcoming | ⟨j, hj⟩
      · exact .inl (h.coming hcoming)
      · exact h.toward hinv hoff hj hwatched'
    · exact .inr ⟨i, hnews⟩

theorem Kept.coming (h : Kept b b') (hcoming : b.Coming) : b'.Coming := by
  unfold Bell.Coming
  rwa [h.rung, h.ringer]

theorem Kept.watch (h : Kept b b') (hinv : Inv on b) (hoff : b.stage ≠ .off) {t : τ}
    (hwatched : b.watched t) (hready : b'.ready t) :
    b'.Coming ∨ ∃ i, b'.ringer i = .toward (on t) := by
  rw [h.ringer]
  exact (hinv.watch hoff t hwatched (h.ready t hready)).imp_left h.coming

theorem inv_of_off (h : b.stage = .off) : Inv on b := by
  refine ⟨fun hlistens => ?_, absurd h, absurd h, absurd h⟩
  rw [h] at hlistens
  cases hlistens

/-- A step of the sleeper. -/
theorem SleeperStep.inv (h : SleeperStep on b b') (hinv : Inv on b) :
    Inv on b' := by
  cases h with
  | leave stage => exact inv_of_off stage
  | clear stage rung set watched =>
    refine ⟨fun _ hrung => ?_, fun _ p hp => absurd hp (set p),
      fun _ t ht => absurd ht (watched t), fun _ t ht => absurd ht (watched t)⟩
    rw [rung] at hrung
    cases hrung
  | go stage kept token armed set watched =>
    refine ⟨fun hlistens hrung => ?_, fun hoff p hp => ?_, fun _ t ht => (watched t ht).1,
      fun hoff t ht hready => ?_⟩
    · rw [token, kept.ringer]
      exact hinv.rung (stage ▸ hlistens) (kept.rung ▸ hrung)
    · rcases set p hp with hold | harmed
      · exact (hinv.armed (stage ▸ hoff) p hold).imp (armed p) kept.coming
      · exact .inl harmed
    · rcases (watched t ht).2 with hold | hnot
      · exact kept.watch hinv (stage ▸ hoff) hold hready
      · exact absurd hready hnot
  | park was stage kept armed set watched =>
    have hoff : b.stage ≠ .off := by rw [was]; exact nofun
    refine ⟨fun hlistens => ?_, fun _ p hp => ?_, fun _ t ht => (watched t ht).1,
      fun _ t ht => kept.watch hinv hoff (watched t ht).2⟩
    · rw [stage] at hlistens; cases hlistens
    · rw [armed]
      exact (hinv.armed hoff p (set p hp)).imp_right kept.coming
  | resume was stage rung kept armed set watched =>
    have hoff : b.stage ≠ .off := by rw [was]; exact nofun
    refine ⟨fun _ hrung => ?_, fun _ p hp => ?_, fun _ t ht => (watched t ht).1,
      fun _ t ht => kept.watch hinv hoff (watched t ht).2⟩
    · rw [kept.rung, rung] at hrung; cases hrung
    · rw [armed]
      exact (hinv.armed hoff p (set p hp)).imp_right kept.coming

theorem Inv.step (hinv : Inv on b) (h : Bell.Step on b b') : Inv on b' := by
  rcases h with ⟨i, hi⟩ | hsleeper
  · exact hi.inv hinv
  · exact hsleeper.inv hinv

/-- When nobody is on the way, a sleeper without a pending unpark sleeps on topics that are not
ready. -/
theorem Inv.not_ready (hinv : Inv on b) (hstage : b.stage = .listens)
    (htoken : b.token = false) (hquiet : ∀ i, b.ringer i = .away) {t : τ}
    (hwatched : b.watched t) : ¬ b.ready t := by
  intro hready
  have hnobody {i : ι} {r : Ringer π} (hi : b.ringer i = r) (hr : r ≠ .away) : False :=
    hr (hi.symm.trans (hquiet i))
  have hcoming : ¬ b.Coming := by
    rintro (hrung | ⟨i, hi⟩)
    · rcases hinv.rung hstage hrung with ht | ⟨i, hi⟩
      · rw [htoken] at ht; cases ht
      · exact hnobody hi nofun
    · exact hnobody hi nofun
  rcases hinv.watch (by rw [hstage]; nofun) t hwatched hready with h | ⟨i, hi⟩
  · exact hcoming h
  · exact hnobody hi nofun

end Invariant

end Crossfire.Lib.Doorbell
