import Crossfire.ArrayQueue.Mpmc

/-!
# The invariant of `ArrayQueue`

Head and tail are the words of the numbers of claimed and of pushed messages, the slots are in their
phases (`Phased`), and an operation in front of its compare-exchange knows that its slot lets it in,
unless the position has moved on since. `inv_of_reach` is the invariant of all runs in which no
operation is suspended across a wrap (`wrapOk`).
-/

set_option autoImplicit false

namespace Crossfire.ArrayQueue.Mpmc

open Lib.Interleaving Lib.Lap Lib.Fifo Lib.Cells Lib.Slots Function

section Invariant

variable {r : Ring} {ι V : Type} {s t : St ι V}

/-- The stamp of a slot that holds message `k`. -/
def fullStamp (r : Ring) (k : Nat) : Nat := r.enc k + 1

/-- A lap is shorter than the period of the stamps. -/
theorem stamps (r : Ring) : Stamps r.cap r.enc (fullStamp r) := by
  have hpos := r.cap_pos
  have hperiod := r.cap_lt_period
  have hlap (k : Nat) : r.enc k ≠ r.enc (k + r.cap) := by
    intro heq
    have := Ring.enc_inj heq (by omega) (by omega)
    omega
  refine ⟨hpos, hlap, ?_, ?_, ?_⟩
  · intro k heq
    exact hlap k (Nat.succ.inj heq)
  · intro k heq
    exact Nat.succ_ne_self _ heq.symm
  · intro k
    exact Ring.enc_add_one_ne (Nat.add_mod_right k r.cap).symm

/-- A token is for the slot of its message. -/
structure TokenFits (r : Ring) (t : Token) : Prop where
  index : t.index = t.k % r.cap
  stamp : t.stamp = r.enc (t.k + r.cap)

/-- What an operation knows. -/
def Pc.Fits (r : Ring) (pushed : List V) (claimed : Nat) (value : Nat → Option V) : Pc V → Prop
  | .idle | .load _ _ | .popLoad _ => True
  | .oneHead _ tail k | .look _ _ tail k | .cas _ _ tail k | .checkHead _ tail k =>
    tail = r.enc k ∧ k ≤ pushed.length
  | .popLook _ head k | .popCas _ head k | .popTail _ head k => head = r.enc k ∧ k ≤ claimed
  | .write v tail k => tail = r.enc k ∧ pushed[k]? = some v
  | .publish v tail k => (tail = r.enc k ∧ pushed[k]? = some v) ∧ value (k % r.cap) = some v
  | .token t | .read t => TokenFits r t
  | .release t msg => TokenFits r t ∧ msg = pushed[t.k]?

/-- The position of a push that was let in by the stamp. -/
def Pc.enters : Pc V → Option Nat
  | .cas _ _ _ k => some k
  | .idle | .load _ _ | .oneHead _ _ _ | .look _ _ _ _ | .checkHead _ _ _ | .write _ _ _
  | .publish _ _ _ | .popLoad _ | .popLook _ _ _ | .popCas _ _ _ | .popTail _ _ _ | .token _
  | .read _ | .release _ _ => none

/-- The position of a pop that was let in by the stamp. -/
def Pc.popEnters : Pc V → Option Nat
  | .popCas _ _ k => some k
  | .idle | .load _ _ | .oneHead _ _ _ | .look _ _ _ _ | .cas _ _ _ _ | .checkHead _ _ _
  | .write _ _ _ | .publish _ _ _ | .popLoad _ | .popLook _ _ _ | .popTail _ _ _ | .token _
  | .read _ | .release _ _ => none

/-- The next message to pop is in its slot. -/
def Published (writes : ι → Option Nat) (pushed claimed : Nat) : Prop :=
  claimed < pushed ∧ ∀ i, writes i ≠ some claimed

/-- The words are the positions, and the slots follow the turns of their stamps. -/
structure Inv (r : Ring) (s : St ι V) : Prop where
  head : s.head = r.enc s.claimed
  tail : s.tail = r.enc s.pushed.length
  pc : ∀ i, (s.pc i).Fits r s.pushed s.claimed s.value
  cells : Phased r.cap r.enc (fullStamp r) (fun i => (s.pc i).writes) (fun i => (s.pc i).reads)
    s.pushed s.claimed s.value s.stamp
  enters : ∀ i, (s.pc i).enters = some s.pushed.length →
    Free r.cap (fun i => (s.pc i).reads) s.pushed.length s.claimed
  popEnters : ∀ i, (s.pc i).popEnters = some s.claimed →
    Published (fun i => (s.pc i).writes) s.pushed.length s.claimed
  returned : ∀ k, k ∈ s.returned.map Prod.fst ↔
    k < s.claimed ∧ ∀ i, (s.pc i).reads ≠ some k
  delivers : Delivers s.pushed s.returned

theorem enc_of_lt {k : Nat} (hk : k < r.cap) : k = r.enc k := by
  rw [Ring.enc_eq, Nat.div_eq_of_lt hk, Nat.mod_eq_of_lt hk]
  simp

theorem inv_new : Inv r (St.new : St ι V) := by
  have hzero : r.enc 0 = 0 := by simp [Ring.enc]
  refine ⟨hzero.symm, hzero.symm, fun _ => trivial, phased_nil fun k => enc_of_lt,
    by rintro _ ⟨⟩, by rintro _ ⟨⟩, ?_, delivers_nil⟩
  intro k
  exact ⟨by rintro ⟨⟩, fun h => absurd h.1 (Nat.not_lt_zero k)⟩

/-! ## Steps that keep the history -/

variable {pc : Pc V}

/-- A push moves no other agent. -/
theorem Pc.Fits.push {pushed : List V} {n : Nat} {value : Nat → Option V}
    (h : pc.Fits r pushed n value) (hreads : ∀ k, pc.reads = some k → k < pushed.length) (w : V) :
    pc.Fits r (pushed ++ [w]) n value := by
  have hlen : (pushed ++ [w]).length = pushed.length + 1 := by simp
  have hget {v : V} {k : Nat} (hk : pushed[k]? = some v) : (pushed ++ [w])[k]? = some v := by
    obtain ⟨hlt, _⟩ := List.getElem?_eq_some_iff.mp hk
    rw [List.getElem?_append_left hlt, hk]
  cases pc with
  | idle | load v one | popLoad select => exact trivial
  | oneHead v tail k | look v one tail k | cas v one tail k | checkHead v tail k =>
    exact ⟨h.1, by have := h.2; omega⟩
  | popLook | popCas | popTail | token | read => exact h
  | write v tail k => exact ⟨h.1, hget h.2⟩
  | publish v tail k => exact ⟨⟨h.1.1, hget h.1.2⟩, h.2⟩
  | release tok msg => exact ⟨h.1, by rw [List.getElem?_append_left (hreads tok.k rfl), h.2]⟩

/-- A pop elsewhere changes nothing. -/
theorem Pc.Fits.pop {pushed : List V} {n : Nat} {value : Nat → Option V}
    (h : pc.Fits r pushed n value) : pc.Fits r pushed (n + 1) value := by
  cases pc with
  | popLook select head k | popCas select head k | popTail select head k =>
    exact ⟨h.1, Nat.le_succ_of_le h.2⟩
  | idle | load | popLoad | oneHead | look | cas | checkHead | write | publish | token | read
  | release => exact h

/-- What a call keeps for its answer is not part of the queue. -/
theorem Inv.log (h : Inv r s) (claims peak : ι → Nat) (answers : List Answer) :
    Inv r { s with claims := claims, peak := peak, answers := answers } := { h with }

theorem of_seeks (h : pc.seeks) : pc.writes = none ∧ pc.reads = none := by
  cases pc <;> first | exact ⟨rfl, rfl⟩ | cases h

theorem of_popSeeks (h : pc.popSeeks) : pc.writes = none ∧ pc.reads = none := by
  cases pc <;> first | exact ⟨rfl, rfl⟩ | cases h

variable [DecidableEq ι]

variable {i : ι}

/-- A step that only loads. -/
theorem Inv.setPc (h : Inv r s) (hwrites : pc.writes = (s.pc i).writes)
    (hreads : pc.reads = (s.pc i).reads) (hfits : pc.Fits r s.pushed s.claimed s.value)
    (henters : pc.enters = some s.pushed.length →
      Free r.cap (fun i => (s.pc i).reads) s.pushed.length s.claimed)
    (hpopEnters : pc.popEnters = some s.claimed →
      Published (fun i => (s.pc i).writes) s.pushed.length s.claimed) : Inv r (s.setPc i pc) := by
  have hw := map_update_of_eq hwrites
  have hr := map_update_of_eq hreads
  have hr' (j : ι) : (update s.pc i pc j).reads = (s.pc j).reads := congrFun hr j
  refine ⟨h.head, h.tail, forall_update (fun j _ => h.pc j) hfits, ?_, ?_, ?_, ?_, h.delivers⟩
  · show Phased _ _ _ (fun j => (update s.pc i pc j).writes)
      (fun j => (update s.pc i pc j).reads) _ _ _ _
    rw [hw, hr]
    exact h.cells
  · show ∀ j, (update s.pc i pc j).enters = some s.pushed.length →
      Free _ (fun j => (update s.pc i pc j).reads) _ _
    rw [hr]
    exact forall_phase (P := fun pc : Pc V => pc.enters = _ → _) (fun j _ => h.enters j) henters
  · show ∀ j, (update s.pc i pc j).popEnters = some s.claimed →
      Published (fun j => (update s.pc i pc j).writes) _ _
    rw [hw]
    exact forall_phase (P := fun pc : Pc V => pc.popEnters = _ → _)
      (fun j _ => h.popEnters j) hpopEnters
  · intro k
    show _ ↔ k < s.claimed ∧ ∀ j, (update s.pc i pc j).reads ≠ some k
    simp only [hr']
    exact h.returned k

/-- A call that holds no slot returns. -/
theorem Inv.answer {result : Option Bool} (h : Inv r s) (hw : (s.pc i).writes = none)
    (hr : (s.pc i).reads = none) : Inv r (s.answer i result) := by
  have hidle : Inv r (s.setPc i .idle) :=
    h.setPc (by rw [hw]; rfl) (by rw [hr]; rfl) trivial nofun nofun
  exact hidle.log s.claims s.peak (⟨result, s.claims i, s.peak i⟩ :: s.answers)

/-! ## The compare-exchanges -/

/-- The compare-exchange of a push. -/
theorem Inv.claim {v : V} {one : Bool} {k : Nat} (h : Inv r s)
    (hpc : s.pc i = .cas v one s.tail k) (hwrap : s.pushed.length < k + r.period) :
    Inv r (s.claim r i v) := by
  have hpci := h.pc i
  rw [hpc] at hpci
  obtain ⟨htail, hk⟩ := hpci
  rw [h.tail] at htail
  obtain rfl : k = s.pushed.length := Ring.enc_inj htail.symm hk hwrap
  have hfree := h.enters i (by rw [hpc]; rfl)
  have hnew : (s.pushed ++ [v]).length = s.pushed.length + 1 := by simp
  have hw : (s.pc i).writes = none := by rw [hpc]; rfl
  have hr : (s.pc i).reads = none := by rw [hpc]; rfl
  have hwrites := map_update (g := s.pc) Pc.writes i (.write v s.tail s.pushed.length)
  have hreads : (fun j => (update s.pc i (.write v s.tail s.pushed.length) j).reads) =
      fun j => (s.pc j).reads := map_update_of_eq (by rw [hr]; rfl)
  have hreads' (j : ι) :
      (update s.pc i (.write v s.tail s.pushed.length) j).reads = (s.pc j).reads :=
    congrFun hreads j
  have hfits : (Pc.write v s.tail s.pushed.length).Fits r (s.pushed ++ [v]) s.claimed s.value :=
    ⟨h.tail, by simp⟩
  refine ⟨h.head, ?_, ?_, ?_, ?_, ?_, ?_, h.delivers.push v⟩
  · show r.next s.tail = r.enc (s.pushed ++ [v]).length
    rw [h.tail, Ring.next_enc, hnew]
  · refine forall_phase (fun j _ => (h.pc j).push (fun k hk => ?_) v) hfits
    exact (h.cells.readLt j k hk).1.trans_le h.cells.le
  · show Phased _ _ _ (fun j => (update s.pc i _ j).writes)
      (fun j => (update s.pc i _ j).reads) _ _ _ _
    rw [hwrites, hreads]
    exact h.cells.claim (stamps r) hw hfree
  · -- nobody else was let in at the new tail
    show ∀ j, (update s.pc i _ j).enters = some (s.pushed ++ [v]).length → _
    refine forall_phase (P := fun pc : Pc V => pc.enters = _ → _) (fun j _ hj => ?_) nofun
    have hpcj := h.pc j
    cases hpc' : s.pc j with
    | cas v' one' tail' k' =>
      rw [hpc'] at hpcj hj
      have hk' : k' = (s.pushed ++ [v]).length := Option.some.inj hj
      have := hpcj.2
      omega
    | idle | load | popLoad | oneHead | look | checkHead | write | publish | popLook | popCas
    | popTail | token | read | release =>
      rw [hpc'] at hj
      cases hj
  · show ∀ j, (update s.pc i _ j).popEnters = some s.claimed →
      Published (fun j => (update s.pc i _ j).writes) (s.pushed ++ [v]).length s.claimed
    refine forall_phase (P := fun pc : Pc V => pc.popEnters = _ → _) (fun j _ hj => ?_) nofun
    obtain ⟨hlt, hnone⟩ := h.popEnters j hj
    refine ⟨by omega, forall_phase (P := fun pc : Pc V => pc.writes ≠ _) (fun j' _ => hnone j') ?_⟩
    intro heq
    have : s.pushed.length = s.claimed := Option.some.inj heq
    omega
  · intro k
    show _ ↔ k < s.claimed ∧ ∀ j, (update s.pc i _ j).reads ≠ some k
    simp only [hreads']
    exact h.returned k

/-- The compare-exchange of a pop. -/
theorem Inv.take {select : Bool} {k : Nat} (h : Inv r s)
    (hpc : s.pc i = .popCas select s.head k) (hwrap : s.claimed < k + r.period) :
    Inv r (s.take r i select) := by
  have hpci := h.pc i
  rw [hpc] at hpci
  obtain ⟨hhead, hk⟩ := hpci
  rw [h.head] at hhead
  -- the word read is the head of this lap, not of an earlier one
  obtain rfl : k = s.claimed := Ring.enc_inj hhead.symm hk hwrap
  obtain ⟨hlt, hnone⟩ := h.popEnters i (by rw [hpc]; rfl)
  have hw : (s.pc i).writes = none := by rw [hpc]; rfl
  have hr : (s.pc i).reads = none := by rw [hpc]; rfl
  obtain ⟨pc, hpc'⟩ : ∃ pc : Pc V,
      pc = if select then .token (s.headToken r) else .read (s.headToken r) := ⟨_, rfl⟩
  have htoken : TokenFits r (s.headToken r) :=
    ⟨by simp only [St.headToken, h.head, Ring.index_enc],
      by simp only [St.headToken, h.head, Ring.addLap_enc]⟩
  have hfits : pc.Fits r s.pushed (s.claimed + 1) s.value := by
    cases select <;> (subst hpc'; exact htoken)
  have hpcReads : pc.reads = some s.claimed := by cases select <;> (subst hpc'; rfl)
  have hpcWrites : pc.writes = none := by cases select <;> (subst hpc'; rfl)
  have hpcEnters (n : Nat) : pc.enters ≠ some n := by cases select <;> (subst hpc'; nofun)
  have hpcPop (n : Nat) : pc.popEnters ≠ some n := by cases select <;> (subst hpc'; nofun)
  have hreads := map_update (g := s.pc) Pc.reads i pc
  have hwrites : (fun j => (update s.pc i pc j).writes) = fun j => (s.pc j).writes :=
    map_update_of_eq (by rw [hw, hpcWrites])
  rw [St.take, ← hpc']
  refine ⟨?_, h.tail, ?_, ?_, ?_, ?_, ?_, h.delivers⟩
  · show r.next s.head = r.enc (s.claimed + 1)
    rw [h.head, Ring.next_enc]
  · exact forall_phase (fun j _ => (h.pc j).pop) hfits
  · show Phased _ _ _ (fun j => (update s.pc i _ j).writes)
      (fun j => (update s.pc i _ j).reads) _ _ _ _
    rw [hwrites, hreads, hpcReads]
    exact h.cells.take hr hlt hnone
  · show ∀ j, (update s.pc i _ j).enters = some s.pushed.length →
      Free _ (fun j => (update s.pc i _ j).reads) s.pushed.length (s.claimed + 1)
    refine forall_phase (P := fun pc : Pc V => pc.enters = _ → _) (fun j _ hj => ?_)
      fun hi => absurd hi (hpcEnters _)
    rcases h.enters j hj with hsmall | ⟨k, hk, hclaimed, hfree⟩
    · exact .inl hsmall
    · refine .inr ⟨k, hk, by omega, forall_phase (P := fun pc : Pc V => pc.reads ≠ _)
        (fun j' _ => hfree j') ?_⟩
      rw [hpcReads]
      intro heq
      -- the slot a producer found free is not the one claimed here
      have : s.claimed = k := Option.some.inj heq
      omega
  · show ∀ j, (update s.pc i _ j).popEnters = some (s.claimed + 1) → _
    refine forall_phase (P := fun pc : Pc V => pc.popEnters = _ → _) (fun j _ hj => ?_)
      fun hi => absurd hi (hpcPop _)
    have hpcj := h.pc j
    cases hpcj' : s.pc j with
    | popCas select' head' k' =>
      rw [hpcj'] at hpcj hj
      have hk' : k' = s.claimed + 1 := Option.some.inj hj
      have := hpcj.2
      omega
    | idle | load | popLoad | oneHead | look | cas | checkHead | write | publish | popLook
    | popTail | token | read | release =>
      rw [hpcj'] at hj
      cases hj
  · intro k
    show _ ↔ k < s.claimed + 1 ∧ ∀ j, (update s.pc i pc j).reads ≠ some k
    rw [h.returned k]
    constructor
    · rintro ⟨hlt', hfree⟩
      refine ⟨by omega, forall_phase (P := fun pc : Pc V => pc.reads ≠ _) (fun j' _ => hfree j') ?_⟩
      rw [hpcReads]
      intro heq
      have : s.claimed = k := Option.some.inj heq
      omega
    · rintro ⟨hlt', hfree⟩
      have hne : k ≠ s.claimed := by
        rintro rfl
        refine hfree i ?_
        rw [update_self, hpcReads]
      refine ⟨by omega, fun j hj => ?_⟩
      by_cases hji : j = i
      · rw [hji, hr] at hj
        cases hj
      · exact hfree j (by rw [update_of_ne hji, hj])

/-! ## The slots -/

/-- A push writes its slot. -/
theorem Inv.write {v : V} {tail k : Nat} (h : Inv r s) (hpc : s.pc i = .write v tail k) :
    Inv r { s with
      value := update s.value (r.index tail) (some v)
      pc := update s.pc i (.publish v tail k) } := by
  have hpci := h.pc i
  rw [hpc] at hpci
  have hi : (s.pc i).writes = some k := by rw [hpc]; rfl
  have hindex : r.index tail = k % r.cap := by rw [hpci.1, Ring.index_enc]
  have hpublish : (Pc.publish v tail k).Fits r s.pushed s.claimed
      (update s.value (k % r.cap) (some v)) := ⟨hpci, update_self ..⟩
  have hw : (fun j => (update s.pc i (.publish v tail k) j).writes) =
      fun j => (s.pc j).writes := map_update_of_eq (by rw [hi]; rfl)
  have hr : (fun j => (update s.pc i (.publish v tail k) j).reads) =
      fun j => (s.pc j).reads := map_update_of_eq (by rw [hpc]; rfl)
  have hr' (j : ι) :
      (update s.pc i (.publish v tail k) j).reads = (s.pc j).reads := congrFun hr j
  rw [hindex]
  refine ⟨h.head, h.tail, ?_, ?_, ?_, ?_, ?_, h.delivers⟩
  · refine forall_phase (fun j hj => ?_) hpublish
    have hpcj := h.pc j
    cases hpc' : s.pc j with
    | publish v' tail' k' =>
      rw [hpc'] at hpcj
      refine ⟨hpcj.1, ?_⟩
      have hwj : (s.pc j).writes = some k' := by rw [hpc']; rfl
      have hne : k' ≠ k := by
        rintro rfl
        exact hj (h.cells.writeUnique j i k' hwj hi)
      exact (update_of_ne (h.cells.write_ne_write hwj hi hne) ..).trans hpcj.2
    | idle | load | popLoad | oneHead | look | cas | checkHead | write | popLook | popCas
    | popTail | token | read | release =>
      rw [hpc'] at hpcj
      exact hpcj
  · show Phased _ _ _ (fun j => (update s.pc i _ j).writes)
      (fun j => (update s.pc i _ j).reads) _ _ _ _
    rw [hw, hr]
    exact h.cells.write hi
  · show ∀ j, (update s.pc i _ j).enters = some s.pushed.length →
      Free _ (fun j => (update s.pc i _ j).reads) _ _
    rw [hr]
    exact forall_phase (P := fun pc : Pc V => pc.enters = _ → _) (fun j _ => h.enters j) nofun
  · show ∀ j, (update s.pc i _ j).popEnters = some s.claimed →
      Published (fun j => (update s.pc i _ j).writes) _ _
    rw [hw]
    exact forall_phase (P := fun pc : Pc V => pc.popEnters = _ → _) (fun j _ => h.popEnters j) nofun
  · intro k'
    show _ ↔ k' < s.claimed ∧ ∀ j, (update s.pc i _ j).reads ≠ some k'
    simp only [hr']
    exact h.returned k'

/-- A push stores its stamp. -/
theorem Inv.publish {v : V} {tail k : Nat} (h : Inv r s) (hpc : s.pc i = .publish v tail k) :
    Inv r { s with
      stamp := update s.stamp (r.index tail) (tail + 1)
      pc := update s.pc i .idle } := by
  have hpci := h.pc i
  rw [hpc] at hpci
  obtain ⟨⟨rfl, hvalue⟩, hslot⟩ := hpci
  have hi : (s.pc i).writes = some k := by rw [hpc]; rfl
  have hr : (fun j => (update s.pc i .idle j).reads) =
      fun j => (s.pc j).reads := map_update_of_eq (by rw [hpc]; rfl)
  have hr' (j : ι) : (update s.pc i .idle j).reads = (s.pc j).reads := congrFun hr j
  rw [Ring.index_enc]
  refine ⟨h.head, h.tail, ?_, ?_, ?_, ?_, ?_, h.delivers⟩
  · exact forall_phase (fun j _ => h.pc j) trivial
  · show Phased _ _ _ (fun j => (update s.pc i _ j).writes)
      (fun j => (update s.pc i _ j).reads) _ _ _ _
    rw [map_update Pc.writes, hr]
    exact h.cells.publish hi (hslot.trans hvalue.symm)
  · show ∀ j, (update s.pc i _ j).enters = some s.pushed.length →
      Free _ (fun j => (update s.pc i _ j).reads) _ _
    rw [hr]
    exact forall_phase (P := fun pc : Pc V => pc.enters = _ → _) (fun j _ => h.enters j) nofun
  · show ∀ j, (update s.pc i _ j).popEnters = some s.claimed →
      Published (fun j => (update s.pc i _ j).writes) _ _
    refine forall_phase (P := fun pc : Pc V => pc.popEnters = _ → _) (fun j _ hj => ?_) nofun
    obtain ⟨hlt, hnone⟩ := h.popEnters j hj
    exact ⟨hlt, forall_phase (P := fun pc : Pc V => pc.writes ≠ _) (fun j' _ => hnone j') nofun⟩
  · intro k'
    show _ ↔ k' < s.claimed ∧ ∀ j, (update s.pc i _ j).reads ≠ some k'
    simp only [hr']
    exact h.returned k'

/-- A pop gives its slot back. -/
theorem Inv.release {tok : Token} {msg : Option V} (h : Inv r s) (hpc : s.pc i = .release tok msg) :
    Inv r { s with
      stamp := update s.stamp tok.index tok.stamp
      pc := update s.pc i .idle
      returned := s.returned ++ [(tok.k, msg)] } := by
  have hpci := h.pc i
  rw [hpc] at hpci
  obtain ⟨htoken, hmsg⟩ := hpci
  have hi : (s.pc i).reads = some tok.k := by rw [hpc]; rfl
  have hw : (fun j => (update s.pc i .idle j).writes) =
      fun j => (s.pc j).writes := map_update_of_eq (by rw [hpc]; rfl)
  obtain ⟨hclaimed, hlast⟩ := h.cells.readLt i tok.k hi
  have hle := h.cells.le
  have hnew : tok.k ∉ s.returned.map Prod.fst := fun hmem => ((h.returned tok.k).mp hmem).2 i hi
  rw [htoken.index, htoken.stamp]
  refine ⟨h.head, h.tail, ?_, ?_, ?_, ?_, ?_, ?_⟩
  · exact forall_phase (fun j _ => h.pc j) trivial
  · show Phased _ _ _ (fun j => (update s.pc i _ j).writes)
      (fun j => (update s.pc i _ j).reads) _ _ _ _
    rw [map_update Pc.reads, hw]
    exact h.cells.release hi
  · show ∀ j, (update s.pc i _ j).enters = some s.pushed.length →
      Free _ (fun j => (update s.pc i _ j).reads) _ _
    refine forall_phase (P := fun pc : Pc V => pc.enters = _ → _) (fun j _ hj => ?_) nofun
    rcases h.enters j hj with hsmall | ⟨k, hk, hlt, hfree⟩
    · exact .inl hsmall
    · exact .inr ⟨k, hk, hlt, forall_phase (P := fun pc : Pc V => pc.reads ≠ _)
        (fun j' _ => hfree j') nofun⟩
  · show ∀ j, (update s.pc i _ j).popEnters = some s.claimed →
      Published (fun j => (update s.pc i _ j).writes) _ _
    rw [hw]
    exact forall_phase (P := fun pc : Pc V => pc.popEnters = _ → _) (fun j _ => h.popEnters j) nofun
  · intro k
    show k ∈ (s.returned ++ [(tok.k, msg)]).map Prod.fst ↔
      k < s.claimed ∧ ∀ j, (update s.pc i _ j).reads ≠ some k
    rw [List.map_append, List.mem_append, h.returned k, List.map_singleton, List.mem_singleton]
    constructor
    · rintro (⟨hlt, hfree⟩ | rfl)
      · exact ⟨hlt, forall_phase (P := fun pc : Pc V => pc.reads ≠ _) (fun j' _ => hfree j') nofun⟩
      · refine ⟨hclaimed, forall_phase (P := fun pc : Pc V => pc.reads ≠ _)
          (fun j hj hreads => ?_) nofun⟩
        exact hj (h.cells.readUnique j i tok.k hreads hi)
    · rintro ⟨hlt, hfree⟩
      by_cases hk : k = tok.k
      · exact .inr hk
      · refine .inl ⟨hlt, fun j hj => ?_⟩
        by_cases hji : j = i
        · rw [hji, hi] at hj
          exact hk (Option.some.inj hj).symm
        · exact hfree j (by rw [update_of_ne hji, hj])
  · rw [hmsg]
    exact h.delivers.hand (by omega) hnew

/-! ## Runs -/

/-- **A step of a call keeps the invariant.** -/
theorem Inv.go {choice : Bool} {lap : Nat} (h : Inv r s)
    (hok : wrapOk r lap s (.go i choice)) (hstep : stepGo r s i choice = some t) : Inv r t := by
  have hpci := h.pc i
  cases goStep_of_stepGo hstep with
  | load pc hseeks hnext =>
    obtain ⟨hw, hr⟩ := of_seeks hseeks
    have hpos : s.tail = r.enc s.pushed.length ∧ s.pushed.length ≤ s.pushed.length :=
      ⟨h.tail, Nat.le_refl _⟩
    rcases hnext with ⟨v, rfl⟩ | ⟨v, rfl⟩ | ⟨v, one, rfl⟩
    · exact h.setPc (by rw [hw]; rfl) (by rw [hr]; rfl) trivial nofun nofun
    · exact h.setPc (by rw [hw]; rfl) (by rw [hr]; rfl) hpos nofun nofun
    · exact h.setPc (by rw [hw]; rfl) (by rw [hr]; rfl) hpos nofun nofun
  | keep tail k pc hold hnext =>
    have hpos : tail = r.enc k ∧ k ≤ s.pushed.length := by
      rcases hold with ⟨v, hpc⟩ | ⟨v, one, hpc⟩ <;> (rw [hpc] at hpci; exact hpci)
    have hw : (s.pc i).writes = none := by
      rcases hold with ⟨v, hpc⟩ | ⟨v, one, hpc⟩ <;> (rw [hpc]; rfl)
    have hr : (s.pc i).reads = none := by
      rcases hold with ⟨v, hpc⟩ | ⟨v, one, hpc⟩ <;> (rw [hpc]; rfl)
    rcases hnext with ⟨v, rfl⟩ | ⟨v, rfl⟩
    · exact h.setPc (by rw [hw]; rfl) (by rw [hr]; rfl) hpos nofun nofun
    · exact h.setPc (by rw [hw]; rfl) (by rw [hr]; rfl) hpos nofun nofun
  | enter v one tail k hpc hstamp =>
    rw [hpc] at hpci
    refine h.setPc (by rw [hpc]; rfl) (by rw [hpc]; rfl) hpci ?_ nofun
    intro hk
    obtain rfl : k = s.pushed.length := Option.some.inj hk
    refine h.cells.free_of_stamp (stamps r) ?_
    rw [hpci.1, Ring.index_enc] at hstamp
    exact hstamp.symm
  | refuse v tail k hpc hfull =>
    rcases hpc with hpc | hpc
    · exact h.answer (by rw [hpc]; rfl) (by rw [hpc]; rfl)
    · exact h.answer (by rw [hpc]; rfl) (by rw [hpc]; rfl)
  | giveUp hseeks => exact h.answer (of_seeks hseeks).1 (of_seeks hseeks).2
  | claim v one k hpc =>
    have hwrap := hok.1 k (by rw [hpc]; rfl)
    exact h.claim hpc (by omega)
  | write v tail k hpc => exact h.write hpc
  | publish v tail k hpc =>
    have hidle := h.publish hpc
    exact hidle.log s.claims s.peak (⟨some true, s.claims i, s.peak i⟩ :: s.answers)
  | popLoad pc hseeks hnext =>
    obtain ⟨hw, hr⟩ := of_popSeeks hseeks
    rcases hnext with ⟨select, rfl⟩ | ⟨select, rfl⟩
    · exact h.setPc (by rw [hw]; rfl) (by rw [hr]; rfl) trivial nofun nofun
    · exact h.setPc (by rw [hw]; rfl) (by rw [hr]; rfl) ⟨h.head, Nat.le_refl _⟩ nofun nofun
  | popEnter select head k hpc hstamp =>
    rw [hpc] at hpci
    refine h.setPc (by rw [hpc]; rfl) (by rw [hpc]; rfl) hpci nofun ?_
    intro hk
    obtain rfl : k = s.claimed := Option.some.inj hk
    refine h.cells.published_of_stamp (stamps r) ?_
    rw [hpci.1, Ring.index_enc] at hstamp
    exact hstamp.symm
  | popKeep select head k hpc =>
    rw [hpc] at hpci
    exact h.setPc (by rw [hpc]; rfl) (by rw [hpc]; rfl) hpci nofun nofun
  | miss select k hpc =>
    have hidle : Inv r (s.setPc i .idle) :=
      h.setPc (by rw [hpc]; rfl) (by rw [hpc]; rfl) trivial nofun nofun
    exact { hidle with }
  | take select k hpc =>
    have hwrap := hok.2 k (by rw [hpc]; rfl)
    exact h.take hpc (by omega)
  | read tok hpc =>
    rw [hpc] at hpci
    have hmsg : s.value tok.index = s.pushed[tok.k]? := by
      rw [hpci.index]
      exact (h.cells.reading i tok.k (by rw [hpc]; rfl)).2
    exact h.setPc (by rw [hpc]; rfl) (by rw [hpc]; rfl) ⟨hpci, hmsg⟩ nofun nofun
  | release tok msg hpc => exact h.release hpc

theorem holds_none_of_idle (h : (match pc with | .idle => true | _ => false) = true) :
    pc.writes = none ∧ pc.reads = none := by
  cases pc <;> simp at h
  exact ⟨rfl, rfl⟩

/-- **Every action keeps the invariant.** -/
theorem Inv.step {a : Act ι V} {lap : Nat} (h : Inv r s) (hok : wrapOk r lap s a)
    (hstep : step r s a = some t) : Inv r t := by
  cases a with
  | push i v one =>
    simp only [Mpmc.step] at hstep
    split_ifs at hstep with hmatch
    cases hstep
    obtain ⟨hw, hr⟩ := holds_none_of_idle hmatch
    have hload : Inv r (s.setPc i (.load v one)) :=
      h.setPc (by rw [hw]; rfl) (by rw [hr]; rfl) trivial (by rintro ⟨⟩) (by rintro ⟨⟩)
    exact hload.log _ _ s.answers
  | pop | select =>
    simp only [Mpmc.step] at hstep
    split_ifs at hstep with hmatch
    cases hstep
    obtain ⟨hw, hr⟩ := holds_none_of_idle hmatch
    exact h.setPc (by rw [hw]; rfl) (by rw [hr]; rfl) trivial (by rintro ⟨⟩) (by rintro ⟨⟩)
  | redeem i =>
    simp only [Mpmc.step] at hstep
    have hpci := h.pc i
    cases hpc : s.pc i with
    | token tok =>
      simp only [hpc] at hstep
      cases hstep
      rw [hpc] at hpci
      exact h.setPc (by rw [hpc]; rfl) (by rw [hpc]; rfl) hpci (by rintro ⟨⟩) (by rintro ⟨⟩)
    | idle | load | popLoad | oneHead | look | cas | checkHead | write | publish | popLook
    | popCas | popTail | read | release =>
      simp [hpc] at hstep
  | go i choice => exact h.go hok hstep

theorem inv_of_reach {lap : Nat} (h : Reach (system r) (wrapOk r lap) s) : Inv r s := by
  refine h.invariant ?_ fun _ _ _ hs hok hstep => hs.step hok hstep
  rintro _ rfl
  exact inv_new

end Invariant

end Crossfire.ArrayQueue.Mpmc
