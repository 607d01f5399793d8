import Crossfire.Multiplex.Steps
import Mathlib.Algebra.BigOperators.Group.Finset.Basic
import Mathlib.Data.Nat.Count

/-!
# `Multiplex` delivers everything before it reports disconnection

The count of open channels is the number of channels whose last sender has not run `close`. When the
consumer reads zero, no channel has a sender any more, so nothing is pushed behind its scan, and a
scan of all channels that finds nothing leaves nothing behind (`Sure`). `delivers_before_disconnect`
is the result; the history of a channel splits into what was returned, the message on its way to the
caller and what is still in the queue.
-/

set_option autoImplicit false

namespace Crossfire.Multiplex

open Lib.Interleaving Function

section Count

variable {p q : Nat → Prop} [DecidablePred p] [DecidablePred q] {i n : Nat}

theorem count_agree (h : ∀ j, j < n → (q j ↔ p j)) : Nat.count q n = Nat.count p n :=
  Nat.le_antisymm (Nat.count_mono_left fun j hj => (h j hj).mp)
    (Nat.count_mono_left fun j hj => (h j hj).mpr)

/-- A predicate that is given up at one index holds once less. -/
theorem count_clear (hi : i < n) (hp : p i) (hq : ¬ q i) (hne : ∀ j, j ≠ i → (q j ↔ p j)) :
    Nat.count q n + 1 = Nat.count p n := by
  induction n with
  | zero => exact absurd hi (Nat.not_lt_zero i)
  | succ n ih =>
    rw [Nat.count_succ, Nat.count_succ]
    rcases Nat.lt_succ_iff_lt_or_eq.mp hi with hlt | rfl
    · rw [if_congr (hne n (by omega)) rfl rfl, ← ih hlt]
      omega
    · rw [if_pos hp, if_neg hq, count_agree fun j hj => hne j (by omega)]

end Count

section Sure

variable {ι V : Type}

/-- What the consumer knows of the channels once it has read that none is open. -/
def Sure (s : St ι V) : Prop :=
  ∀ l, s.pc.left s.len = some l →
    ∀ c, c < s.len → (s.chan c).closed = true ∧ ((s.chan c).queue = [] ∨ c ∈ l)

variable {s t : St ι V}

/-- The steps that close no channel and push no message keep what the consumer knows. -/
theorem Sure.keep (h : Sure s) (hlen : t.len = s.len) (hpc : t.pc = s.pc)
    (hkeep : ∀ c, (s.chan c).closed = true → (t.chan c).closed = true ∧
      ((s.chan c).queue = [] → (t.chan c).queue = [])) : Sure t := by
  intro l hl c hc
  rw [hlen] at hl hc
  rw [hpc] at hl
  obtain ⟨hclosed, hqueue⟩ := h l hl c hc
  exact ⟨(hkeep c hclosed).1, hqueue.imp (hkeep c hclosed).2 id⟩

end Sure

section Invariant

variable {ι V : Type} [Fintype ι]

/-- The handles of channel `c`. -/
structure Held (s : St ι V) (c : Nat) : Prop where
  txCount : (s.chan c).txCount = ∑ j, (s.sender j).holds c
  /-- The channel has senders, or its last sender is about to close it, or it is closed. -/
  phase : (if (s.chan c).txCount = 0 then 0 else 1) + (∑ j, (s.sender j).closes c) +
    (if (s.chan c).closed then 1 else 0) = 1

/-- `opened` counts the open channels, and every channel keeps its books. -/
structure Inv (s : St ι V) : Prop where
  opened : s.opened = Nat.count (fun c => (s.chan c).closed = false) s.len
  index : ∀ j c, (s.sender j).chan = some c → c < s.len
  held : ∀ c, c < s.len → Held s c
  history : ∀ c, (s.chan c).pushed =
    (s.chan c).returned ++ s.pc.inFlight c ++ (s.chan c).queue
  sure : Sure s

variable {s t : St ι V}

theorem inv_new : Inv (St.new : St ι V) where
  opened := rfl
  index _ _ h := nomatch h
  held _ h := absurd h (Nat.not_lt_zero _)
  history _ := rfl
  sure _ h := nomatch h

variable {c : Nat} {i : ι}

/-- A channel with a handle has senders. -/
theorem Held.txCount_of_holds (h : Held s c) (hi : (s.sender i).holds c = 1) :
    (s.chan c).txCount ≠ 0 := by
  have hle := weight_le_sum (SendPc.holds c) s.sender i
  have hcount := h.txCount
  omega

/-- A closed channel has no sender left. -/
theorem Held.of_closed (h : Held s c) (hc : (s.chan c).closed = true) :
    (s.chan c).txCount = 0 ∧ (∑ j, (s.sender j).closes c) = 0 := by
  have hphase := h.phase
  rw [if_pos hc] at hphase
  split_ifs at hphase with hzero
  · exact ⟨hzero, by omega⟩
  · omega

/-- A channel that is about to be closed is not closed and has no sender. -/
theorem Held.of_closes (h : Held s c) (hi : s.sender i = .close c) :
    (s.chan c).txCount = 0 ∧ (∑ j, (s.sender j).closes c) = 1 ∧ (s.chan c).closed = false := by
  have hle := weight_le_sum (SendPc.closes c) s.sender i
  rw [hi, SendPc.closes, if_pos rfl] at hle
  have hphase := h.phase
  split_ifs at hphase with hzero hcl hcl
  · omega
  · exact ⟨hzero, by omega, Bool.eq_false_of_not_eq_true hcl⟩
  · omega
  · omega

theorem Inv.closed_of_opened (hi : Inv s) (h : s.opened = 0) (hc : c < s.len) :
    (s.chan c).closed = true := by
  have hnone := Nat.count_iff_forall_not.mp (hi.opened.symm.trans h) c hc
  exact Bool.eq_true_of_not_eq_false hnone

/-- A closed channel has no sender that could push. -/
theorem Inv.not_trying (hi : Inv s) {v : V} (hpc : s.sender i = .trying c v) :
    (s.chan c).closed = false := by
  have hheld := hi.held c (hi.index i c (by rw [hpc]; rfl))
  refine Bool.eq_false_of_not_eq_true fun hclosed => ?_
  refine hheld.txCount_of_holds (i := i) ?_ (hheld.of_closed hclosed).1
  rw [hpc]
  exact if_pos rfl

/-! ## The count of open channels -/

/-- The steps that neither open nor close a channel. -/
theorem opened_of_closed_eq (hi : Inv s) (hlen : t.len = s.len) (hopened : t.opened = s.opened)
    (hclosed : ∀ c, (t.chan c).closed = (s.chan c).closed) :
    t.opened = Nat.count (fun c => (t.chan c).closed = false) t.len := by
  rw [hopened, hlen, hi.opened]
  exact count_agree fun c _ => by rw [hclosed c]

variable [DecidableEq ι]

/-- `opened` stays the number of open channels. -/
theorem opened_of_does (hi : Inv s) (h : Does s t) :
    t.opened = Nat.count (fun c => (t.chan c).closed = false) t.len := by
  cases h with
  | consumer hchan hlen hopened | sender _ _ hchan hlen hopened =>
    exact opened_of_closed_eq hi hlen hopened fun c => by rw [hchan]
  | take _ _ _ _ hchan hlen hopened | got _ _ _ hchan hlen hopened
  | push _ _ _ _ hchan hlen hopened | addTx _ _ _ _ hchan hlen hopened
  | closeTx _ _ _ hchan hlen hopened =>
    refine opened_of_closed_eq hi hlen hopened fun c => ?_
    rw [hchan, field_update Chan.closed (by rfl)]
  | close i c hpc hchan hlen hopened _ _ =>
    have hc : c < s.len := hi.index i c (by rw [hpc]; rfl)
    have hfalse : (s.chan c).closed = false := ((hi.held c hc).of_closes hpc).2.2
    have hcount : Nat.count (fun c' => (t.chan c').closed = false) s.len + 1 =
        Nat.count (fun c' => (s.chan c').closed = false) s.len := by
      refine count_clear hc hfalse ?_ fun j hj => ?_
      · rw [hchan, update_self]
        exact Bool.noConfusion
      · rw [hchan, update_of_ne hj]
    rw [hlen, hopened, hi.opened]
    omega
  | addItem j ch _ _ hfresh hchan hlen hopened _ _ =>
    have hbelow : Nat.count (fun c => (t.chan c).closed = false) s.len =
        Nat.count (fun c => (s.chan c).closed = false) s.len :=
      count_agree fun c hc => by rw [hchan, update_of_ne (by omega)]
    rw [hlen, hopened, hi.opened, Nat.count_succ, if_pos, hbelow]
    rw [hchan, update_self]
    exact hfresh.2.1

/-! ## The handles of a channel -/

theorem Inv.index_update (hi : Inv s) {pc' : SendPc V}
    (hnew : ∀ c, pc'.chan = some c → c < s.len) {j : ι}
    (hc : (update s.sender i pc' j).chan = some c) : c < s.len :=
  forall_phase (P := fun pc : SendPc V => pc.chan = some c → c < s.len)
    (fun j _ => hi.index j c) (hnew c) j hc

/-- A sender belongs to a channel of the list. -/
theorem index_of_does (hi : Inv s) (h : Does s t) (j : ι) (c : Nat)
    (hc : (t.sender j).chan = some c) : c < t.len := by
  cases h with
  | consumer _ hlen _ hsender | take _ _ _ _ _ hlen _ hsender | got _ _ _ _ hlen _ hsender =>
    rw [hsender] at hc
    rw [hlen]
    exact hi.index j c hc
  | sender i pc' _ hlen _ _ hsender hindex =>
    rw [hsender] at hc
    rw [hlen]
    exact hi.index_update (fun c hpc => hi.index i c (hindex c hpc)) hc
  | push i c' v hpc _ hlen _ _ hsender | close i c' hpc _ hlen _ _ hsender =>
    rw [hsender] at hc
    rw [hlen]
    refine hi.index_update (fun c hnew => hi.index i c ?_) hc
    rw [hpc]
    exact hnew
  | addTx c' j' _ hsource _ hlen _ _ hsender =>
    rw [hsender] at hc
    rw [hlen]
    refine hi.index_update (fun c hnew => ?_) hc
    cases hnew
    rcases hsource with ⟨hlt, _⟩ | ⟨i, hpc⟩
    · exact hlt
    · exact hi.index i _ (by rw [hpc]; rfl)
  | closeTx c' i hpc _ hlen _ _ hsender =>
    rw [hsender] at hc
    rw [hlen]
    refine hi.index_update (fun c hnew => hi.index i c ?_) hc
    rw [hpc]
    split_ifs at hnew
    · exact hnew
    · cases hnew
  | addItem j' ch _ _ _ _ hlen _ _ hsender =>
    rw [hsender] at hc
    rw [hlen]
    by_cases hj : j = j'
    · rw [hj, update_self] at hc
      cases hc
      exact Nat.lt_succ_self _
    · rw [update_of_ne hj] at hc
      exact Nat.lt_succ_of_lt (hi.index j c hc)

/-- A sender that moves on without giving up or taking a handle of channel `c`. -/
theorem Held.same (h : Held s c) {pc' : SendPc V} (hsender : t.sender = update s.sender i pc')
    (hcount : (t.chan c).txCount = (s.chan c).txCount)
    (hclosed : (t.chan c).closed = (s.chan c).closed)
    (hholds : pc'.holds c = (s.sender i).holds c)
    (hcloses : pc'.closes c = (s.sender i).closes c) : Held t c := by
  have hsum := sum_update (SendPc.holds c) s.sender i pc'
  have hsum' := sum_update (SendPc.closes c) s.sender i pc'
  have hold := h.txCount
  have hphase := h.phase
  constructor
  · rw [hcount, hsender]
    omega
  · rw [hcount, hclosed, hsender]
    omega

/-- A step that is about another channel. -/
theorem Held.other {c c' : Nat} (h : Held s c) (hne : c ≠ c') {pc' : SendPc V} {ch : Chan V}
    (hsender : t.sender = update s.sender i pc')
    (hchan : t.chan = update s.chan c' ch)
    (hpc : (s.sender i).chan ≠ some c) (hpc' : pc'.chan ≠ some c) : Held t c := by
  have hsame : t.chan c = s.chan c := by rw [hchan, update_of_ne hne]
  refine h.same hsender (congrArg _ hsame) (congrArg _ hsame) ?_ ?_
  · rw [(SendPc.holds_of_ne hpc).1, (SendPc.holds_of_ne hpc').1]
  · rw [(SendPc.holds_of_ne hpc).2, (SendPc.holds_of_ne hpc').2]

/-- The last sender closes. -/
theorem held_close (h : Held s c) (hpc : s.sender i = .close c)
    (hsender : t.sender = update s.sender i (.fire c .load true))
    (hcount : (t.chan c).txCount = (s.chan c).txCount) (hclosed : (t.chan c).closed = true) :
    Held t c := by
  obtain ⟨hzero, hone, _⟩ := h.of_closes hpc
  have hsum := sum_update (SendPc.holds c) s.sender i (.fire c .load true)
  have hsum' := sum_update (SendPc.closes c) s.sender i (.fire c .load true)
  simp only [hpc, SendPc.holds_close, SendPc.closes_close, SendPc.holds_gone,
    SendPc.closes_fire] at hsum hsum'
  have hold := h.txCount
  constructor
  · rw [hcount, hsender]
    omega
  · rw [hcount, hsender, if_pos hzero, if_pos hclosed]
    omega

/-- A sender is cloned. -/
theorem held_addTx (h : Held s c) {j : ι} (habsent : s.sender j = .absent)
    (hopen : (s.chan c).txCount ≠ 0)
    (hsender : t.sender = update s.sender j (.idle c))
    (hcount : (t.chan c).txCount = (s.chan c).txCount + 1)
    (hclosed : (t.chan c).closed = (s.chan c).closed) : Held t c := by
  have hsum := sum_update (SendPc.holds c) s.sender j (.idle c)
  have hsum' := sum_update (SendPc.closes c) s.sender j (.idle c)
  simp only [habsent, SendPc.holds_absent, SendPc.closes_absent, SendPc.holds_idle,
    SendPc.closes_idle] at hsum hsum'
  have hold := h.txCount
  have hphase := h.phase
  rw [if_neg hopen] at hphase
  constructor
  · rw [hcount, hsender]
    omega
  · rw [hcount, hclosed, hsender, if_neg (Nat.succ_ne_zero _)]
    omega

/-- The last handle leaves a sender that closes the channel. -/
theorem held_closeTx (h : Held s c) (hpc : s.sender i = .idle c)
    (hsender : t.sender = update s.sender i
      (if (s.chan c).txCount ≤ 1 then .close c else .absent))
    (hcount : (t.chan c).txCount = (s.chan c).txCount - 1)
    (hclosed : (t.chan c).closed = (s.chan c).closed) : Held t c := by
  have hopen := h.txCount_of_holds (i := i) (by rw [hpc]; exact if_pos rfl)
  have hold := h.txCount
  have hphase := h.phase
  rw [if_neg hopen] at hphase
  by_cases hlast : (s.chan c).txCount ≤ 1
  · rw [if_pos hlast] at hsender
    have hsum := sum_update (SendPc.holds c) s.sender i (.close c)
    have hsum' := sum_update (SendPc.closes c) s.sender i (.close c)
    simp only [hpc, SendPc.holds_idle, SendPc.closes_idle, SendPc.holds_close,
      SendPc.closes_close] at hsum hsum'
    constructor
    · rw [hcount, hsender]
      omega
    · rw [hcount, hclosed, hsender, if_pos (by omega)]
      omega
  · rw [if_neg hlast] at hsender
    have hsum := sum_update (SendPc.holds c) s.sender i .absent
    have hsum' := sum_update (SendPc.closes c) s.sender i .absent
    simp only [hpc, SendPc.holds_idle, SendPc.closes_idle, SendPc.holds_absent,
      SendPc.closes_absent] at hsum hsum'
    constructor
    · rw [hcount, hsender]
      omega
    · rw [hcount, hclosed, hsender, if_neg (by omega)]
      omega

/-- Nobody has a handle of a channel that is being added, except its first sender. -/
theorem held_addItem (hindex : ∀ j c, (s.sender j).chan = some c → c < s.len) {j : ι}
    (hsender : t.sender = update s.sender j (.idle s.len))
    (hcount : (t.chan s.len).txCount = 1) (hclosed : (t.chan s.len).closed = false) :
    Held t s.len := by
  have hnone : ∀ j, (s.sender j).holds s.len = 0 ∧ (s.sender j).closes s.len = 0 := fun j =>
    SendPc.holds_of_ne fun hpc => Nat.lt_irrefl _ (hindex j s.len hpc)
  have hsum := sum_update (SendPc.holds s.len) s.sender j (.idle s.len)
  have hsum' := sum_update (SendPc.closes s.len) s.sender j (.idle s.len)
  simp only [fun j => (hnone j).1, fun j => (hnone j).2, Finset.sum_const_zero, SendPc.holds_idle,
    SendPc.closes_idle] at hsum hsum'
  constructor
  · rw [hcount, hsender]
    omega
  · rw [hcount, hclosed, hsender, if_neg Nat.one_ne_zero, if_neg Bool.false_ne_true]
    omega

/-- The senders of a channel stay counted. -/
theorem held_of_does (hi : Inv s) (h : Does s t) (hc : c < t.len) : Held t c := by
  cases h with
  | consumer hchan hlen _ hsender =>
    obtain ⟨hold, hphase⟩ := hi.held c (hlen ▸ hc)
    exact ⟨by rw [hchan, hsender, hold], by rw [hchan, hsender, hphase]⟩
  -- receiving changes neither the count nor `closed`
  | take _ _ _ _ hchan hlen _ hsender | got _ _ _ hchan hlen _ hsender =>
    obtain ⟨hold, hphase⟩ := hi.held c (hlen ▸ hc)
    have hcount : (t.chan c).txCount = (s.chan c).txCount := by
      rw [hchan, field_update Chan.txCount (by rfl)]
    have hclosed : (t.chan c).closed = (s.chan c).closed := by
      rw [hchan, field_update Chan.closed (by rfl)]
    exact ⟨by rw [hcount, hsender, hold], by rw [hcount, hclosed, hsender, hphase]⟩
  | sender i pc' hchan hlen _ _ hsender _ hholds hcloses =>
    exact (hi.held c (hlen ▸ hc)).same hsender (by rw [hchan]) (by rw [hchan]) (hholds c)
      (hcloses c)
  | push i c' v hpc hchan hlen _ _ hsender =>
    refine (hi.held c (hlen ▸ hc)).same hsender ?_ ?_ (by rw [hpc]; rfl) (by rw [hpc]; rfl)
    · rw [hchan, field_update Chan.txCount (by rfl)]
    · rw [hchan, field_update Chan.closed (by rfl)]
  | close i c' hpc hchan hlen _ _ hsender =>
    have hold := hi.held c (hlen ▸ hc)
    rcases eq_or_ne c c' with rfl | hne
    · exact held_close hold hpc hsender (by rw [hchan, update_self])
        (by rw [hchan, update_self])
    · refine hold.other hne hsender hchan ?_ ?_
      · rw [hpc]
        exact fun h => hne (Option.some.inj h).symm
      · exact fun h => hne (Option.some.inj h).symm
  | addTx c' j' habsent hsource hchan hlen _ _ hsender =>
    have hold := hi.held c (hlen ▸ hc)
    rcases eq_or_ne c c' with rfl | hne
    · refine held_addTx hold habsent ?_ hsender (by rw [hchan, update_self])
        (by rw [hchan, update_self])
      rcases hsource with ⟨_, hopen⟩ | ⟨i, hpc⟩
      · exact hopen
      · exact hold.txCount_of_holds (i := i) (by rw [hpc]; exact if_pos rfl)
    · refine hold.other hne hsender hchan ?_ ?_
      · rw [habsent]
        exact Option.some_ne_none c |>.symm
      · exact fun h => hne (Option.some.inj h).symm
  | closeTx c' i hpc hchan hlen _ _ hsender =>
    have hold := hi.held c (hlen ▸ hc)
    rcases eq_or_ne c c' with rfl | hne
    · exact held_closeTx hold hpc hsender (by rw [hchan, update_self])
        (by rw [hchan, update_self])
    · refine hold.other hne hsender hchan ?_ ?_
      · rw [hpc]
        exact fun h => hne (Option.some.inj h).symm
      · split_ifs
        · exact fun h => hne (Option.some.inj h).symm
        · exact Option.some_ne_none c |>.symm
  | addItem j' ch habsent _ hfresh hchan hlen _ _ hsender =>
    rcases eq_or_ne c s.len with rfl | hne
    · refine held_addItem hi.index hsender ?_ ?_
      · rw [hchan, update_self]
        exact hfresh.1
      · rw [hchan, update_self]
        exact hfresh.2.1
    · refine (hi.held c (by omega)).other hne hsender hchan ?_ ?_
      · rw [habsent]
        exact Option.some_ne_none c |>.symm
      · exact fun h => hne (Option.some.inj h).symm

/-! ## The messages -/

/-- Nothing is lost or returned twice. -/
theorem history_of_does (hi : Inv s) (h : Does s t) (c : Nat) :
    (t.chan c).pushed = (t.chan c).returned ++ t.pc.inFlight c ++ (t.chan c).queue := by
  have hold := hi.history c
  cases h with
  | consumer hchan _ _ _ hquiet hquiet' => rw [hchan, hquiet' c, hold, hquiet c]
  | take i v rest hqueue hchan _ _ _ hquiet hpc' =>
    rw [hquiet c, List.append_nil] at hold
    rw [hpc', hchan]
    rcases eq_or_ne c i with rfl | hne
    · rw [update_self, hold, hqueue]
      simp only [Pc.inFlight, if_true, List.append_assoc, List.singleton_append]
    · rw [update_of_ne hne, hold]
      simp only [Pc.inFlight, if_neg hne.symm, List.append_nil]
  | got i v hpc hchan _ _ _ hpc' =>
    rw [hpc] at hold
    rw [hpc', hchan]
    rcases eq_or_ne c i with rfl | hne
    · rw [update_self, hold]
      simp only [Pc.inFlight, if_true, List.append_assoc, List.append_nil]
    · rw [update_of_ne hne, hold]
      simp only [Pc.inFlight, if_neg hne.symm]
  | sender _ _ hchan _ _ hpc => rw [hchan, hpc, hold]
  | push i c' v _ hchan _ _ hpc =>
    rw [hchan, hpc]
    rcases eq_or_ne c c' with rfl | hne
    · rw [update_self, hold]
      simp only [List.append_assoc]
    · rw [update_of_ne hne, hold]
  | close _ _ _ hchan _ _ hpc | addTx _ _ _ _ hchan _ _ hpc | closeTx _ _ _ hchan _ _ hpc =>
    rw [hchan, hpc, field_update Chan.pushed (by rfl), field_update Chan.returned (by rfl),
      field_update Chan.queue (by rfl), hold]
  | addItem _ ch _ hidle hfresh hchan _ _ hpc =>
    obtain ⟨_, _, hpushed, hreturned, hqueue⟩ := hfresh
    rw [hchan, hpc]
    rcases eq_or_ne c s.len with rfl | hne
    · rw [update_self, hpushed, hreturned, hqueue, hidle]
      rfl
    · rw [update_of_ne hne, hold]

/-- A disconnection stays true. -/
theorem sure_of_does (hi : Inv s) (h : Does s t) : Sure t := by
  cases h with
  | consumer hchan hlen _ _ _ _ hleft =>
    intro l hl c hc
    rw [hlen] at hl hc
    rw [hchan]
    rcases hleft l hl with ⟨hzero, hall⟩ | ⟨l', hl', hsub⟩
    · exact ⟨hi.closed_of_opened hzero hc, .inr (hall c hc)⟩
    · obtain ⟨hclosed, hqueue | hmem⟩ := hi.sure l' hl' c hc
      · exact ⟨hclosed, .inl hqueue⟩
      · exact ⟨hclosed, (hsub c hmem).symm⟩
  | take _ _ _ _ _ _ _ _ _ hpc' | got _ _ _ _ _ _ _ hpc' =>
    intro l hl
    rw [hpc'] at hl
    cases hl
  | sender _ _ hchan hlen _ hpc =>
    refine hi.sure.keep hlen hpc fun c hclosed => ?_
    rw [hchan]
    exact ⟨hclosed, id⟩
  | push i c' v htrying hchan hlen _ hpc =>
    refine hi.sure.keep hlen hpc fun c hclosed => ?_
    -- a closed channel has no sender that could push
    have hne : c ≠ c' := by
      rintro rfl
      rw [hi.not_trying htrying] at hclosed
      cases hclosed
    rw [hchan, update_of_ne hne]
    exact ⟨hclosed, id⟩
  | close _ c' _ hchan hlen _ hpc =>
    refine hi.sure.keep hlen hpc fun c hclosed => ?_
    rw [hchan, field_update Chan.queue (by rfl)]
    refine ⟨?_, id⟩
    rcases eq_or_ne c c' with rfl | hne
    · rw [update_self]
    · rw [update_of_ne hne, hclosed]
  | addTx _ _ _ _ hchan hlen _ hpc | closeTx _ _ _ hchan hlen _ hpc =>
    refine hi.sure.keep hlen hpc fun c hclosed => ?_
    rw [hchan, field_update Chan.queue (by rfl), field_update Chan.closed (by rfl)]
    exact ⟨hclosed, id⟩
  | addItem _ _ _ hidle _ _ _ _ hpc =>
    intro l hl
    rw [hpc, hidle] at hl
    cases hl

theorem inv_of_does (hi : Inv s) (h : Does s t) : Inv t where
  opened := opened_of_does hi h
  index := index_of_does hi h
  held _ hc := held_of_does hi h hc
  history := history_of_does hi h
  sure := sure_of_does hi h

theorem inv_of_reachable (h : Reachable system s) : Inv s := by
  refine Reach.invariant (P := Inv) ?_ ?_ h
  · rintro s rfl
    exact inv_new
  · exact fun s a t hs _ hstep => inv_of_does hs (does_of_step hstep)

/-- The count of open channels counts those whose last sender has not run `close`. Disconnection is
reported only after every sender was dropped and everything that was pushed has been returned. In
every state, what was pushed to a channel splits into what was returned, what is on its way to the
caller and what is in the queue, in this order: nothing is lost or returned twice. -/
theorem delivers_before_disconnect (h : Reachable system s) :
    s.opened = Nat.count (fun c => (s.chan c).closed = false) s.len ∧
    (s.pc = .err .disconnected →
      (∀ i, (s.sender i).isDropped = true) ∧
      ∀ c, c < s.len → (s.chan c).txCount = 0 ∧ (s.chan c).closed = true ∧
        (s.chan c).returned = (s.chan c).pushed) ∧
    ∀ c, (s.chan c).pushed = (s.chan c).returned ++ s.pc.inFlight c ++ (s.chan c).queue := by
  have hi := inv_of_reachable h
  refine ⟨hi.opened, fun hpc => ?_, hi.history⟩
  have hsure : ∀ c, c < s.len → (s.chan c).closed = true ∧ (s.chan c).queue = [] := by
    intro c hc
    obtain ⟨hclosed, hqueue | hmem⟩ := hi.sure [] (by rw [hpc]; rfl) c hc
    · exact ⟨hclosed, hqueue⟩
    · cases hmem
  constructor
  · intro i
    refine SendPc.isDropped_of_zero fun c hc => ?_
    have hheld := hi.held c (hi.index i c hc)
    obtain ⟨hzero, hcloses⟩ := hheld.of_closed (hsure c (hi.index i c hc)).1
    rw [hheld.txCount] at hzero
    exact ⟨weight_eq_zero_of_sum (SendPc.holds c) s.sender hzero i,
      weight_eq_zero_of_sum (SendPc.closes c) s.sender hcloses i⟩
  · intro c hc
    obtain ⟨hclosed, hqueue⟩ := hsure c hc
    have hhistory := hi.history c
    rw [hqueue, hpc, List.append_nil] at hhistory
    refine ⟨((hi.held c hc).of_closed hclosed).1, hclosed, ?_⟩
    rw [hhistory]
    exact (List.append_nil _).symm

/-- Two channels with one message each, whose senders are dropped before the first receive. -/
theorem delivers_before_disconnect_two :
    ∃ s : St (Fin 2) Nat, Reachable system s ∧ s.pc = .err .disconnected ∧ s.opened = 0 ∧
      (∀ i, (s.sender i).isDropped = true) ∧ (s.chan 0).returned = [7] ∧
      (s.chan 1).returned = [8] := by
  have hnew : Reachable system (St.new : St (Fin 2) Nat) := .init rfl
  obtain ⟨s, hs, hpc, hopened, hlen, hfirst, hsecond⟩ := hnew.exists_of_run
    [.add 0 none 1, .add 1 (some 1) 128, .send 0 7, .goSender 0 true, .goSender 0 true,
      .send 1 8, .goSender 1 true, .goSender 1 true, .dropTx 0, .goSender 0 true,
      .goSender 0 true, .dropTx 1, .goSender 1 true, .goSender 1 true,
      .call .recv, .go true, .go true, .go true, .call .tryRecv, .go true, .go true, .go true,
      .call .recv, .go true, .go true, .go true, .go true, .go true, .go true, .go true,
      .go true, .go true, .go true, .go true, .go true, .go true]
    (fun s => s.pc = .err .disconnected ∧ s.opened = 0 ∧ s.len = 2 ∧
      (s.chan 0).pushed = [7] ∧ (s.chan 1).pushed = [8])
    (by decide +kernel)
  obtain ⟨hdropped, hreturned⟩ := (delivers_before_disconnect hs).2.1 hpc
  refine ⟨s, hs, hpc, hopened, hdropped, ?_, ?_⟩
  · rw [(hreturned 0 (by omega)).2.2, hfirst]
  · rw [(hreturned 1 (by omega)).2.2, hsecond]

end Invariant

end Crossfire.Multiplex
