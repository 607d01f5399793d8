import Crossfire.SegQueue.Delivery

/-!
# A block is freed once, by one of its readers

A block all of whose slots are claimed has one reader for each slot, a `pop` or the holder of a
token, and the pushes that have not published their slot. From then on only these calls concern the
block: the pushes write and mark their slots, and the readers read and mark theirs and hand the
destruction of the block on to each other. `AllClaimed` is such a state, with the block as number 0
and its messages numbered by their slots, and `blockSystem` has the steps of these calls in any
order. Nothing is assumed about the indices of the queue.

`destroy_frees_once` says of every run: the block is freed at most once, and by then every slot has
been read; no call accesses it afterwards; and when all readers have returned it is freed.
`segQueue_frees_once` says the same of every block of a whole queue, as long as no index has come
around: it is freed at most once, no freed block is accessed, and a block all of whose messages are
returned is freed.
-/

set_option autoImplicit false

namespace Crossfire.SegQueue

open Lib.Interleaving Function
open Lib.Fifo
open Lib.Tickets
open Lib.Handover

section Block

variable {ι V : Type}

/-- A push that has its slot, or a reader that has its slot and has not read it. -/
def Pc.fresh : Pc V → Bool
  | .idle | .storeBlock _ _ _ _ | .storeIndex _ _ _ _ | .storeNext _ _ _ | .write _ _ | .publish _
  | .waitNext _ _ _ | .peekNext _ _ _ _ | .storeHeadBlock _ _ _ _ | .storeHeadIndex _ _ _
  | .token _ | .waitWrite _ => true
  | _ => false

/-- A call that has its slot, or is over. -/
def Pc.settled (pc : Pc V) : Bool :=
  match pc with
  | .value _ | .mark _ _ | .destroyLoad _ _ _ _ | .destroyMark _ _ _ _ | .free _ _ _ => true
  | _ => pc.fresh

/-- All slots of block 0 are claimed by readers, and none is read. -/
structure AllClaimed (s : St ι V) : Prop where
  length : s.pushed.length = blockCap
  claimed : s.claimed = blockCap
  returned : s.returned = []
  misused : s.misused = false
  fresh : ∀ i, (s.pc i).fresh = true
  claim : ∀ i c, (s.pc i).claim = some c → c.block = 0 ∧ c.offset = c.k ∧ c.k < blockCap
  reader : ∀ o, o < blockCap → ∃ i, (s.pc i).claims = some o
  oneReader : ∀ i j o, (s.pc i).claims = some o → (s.pc j).claims = some o → i = j
  oneWriter : ∀ i j o, (s.pc i).writes = some o → (s.pc j).writes = some o → i = j
  /-- A slot is published unless its push is not through with it. -/
  written : ∀ o, o < blockCap →
    (((s.blocks 0).slot o).written = true ↔ ∀ i, (s.pc i).writes ≠ some o)
  value : ∀ o, o < blockCap → ((s.blocks 0).slot o).written = true →
    ((s.blocks 0).slot o).value = s.pushed[o]?
  /-- The pushes have the messages of their slots. -/
  knows : ∀ i, (s.pc i).Knows s.pushed s.slots
  unmarked : ∀ n o, ((s.blocks n).slot o).read = false ∧ ((s.blocks n).slot o).destroy = false
  notFreed : ∀ n, (s.blocks n).freed = false
  /-- The blocks behind are new. -/
  behind : ∀ n o, n ≠ 0 → ((s.blocks n).slot o).written = false

variable [DecidableEq ι]

/-- Nobody starts a call. -/
def blockStep (s : St ι V) : Act ι V → Option (St ι V)
  | .redeem i => step s (.redeem i)
  | .go i spurious => step s (.go i spurious)
  | .push _ _ | .pop _ _ | .select _ _ => none

/-- The runs of the calls of one block. -/
def blockSystem : System (St ι V) (Act ι V) := ⟨AllClaimed, blockStep⟩

/-- A call about to free a block. -/
def Pc.isFree : Pc V → Bool
  | .free _ _ _ => true
  | _ => false

/-- How often an action frees a block. -/
def frees (s : St ι V) : Act ι V → Nat
  | .go i _ => (s.pc i).isFree.toNat
  | .redeem _ | .push _ _ | .pop _ _ | .select _ _ => 0

/-- A call about to free block `n`. -/
def Pc.freesBlock (n : Nat) : Pc V → Bool
  | .free b _ _ => b == n
  | _ => false

/-- How often an action frees block `n`. -/
def freesBlock (n : Nat) (s : St ι V) : Act ι V → Nat
  | .go i _ => ((s.pc i).freesBlock n).toNat
  | .redeem _ | .push _ _ | .pop _ _ | .select _ _ => 0

end Block

/-! ## The calls of one block -/

section Calls

variable {ι V : Type} {s t : St ι V} {i : ι}

/-- The claims stay those of the block, and no message is added. -/
structure OneBlock (s : St ι V) : Prop where
  core : Core s
  settled : ∀ i, (s.pc i).settled = true
  claim : ∀ i c, (s.pc i).claim = some c → c.Fits
  length : s.pushed.length = 31
  claimed : s.claimed = 31
  misused : s.misused = false

variable {pc : Pc V}

theorem claim_of_claims {k : Nat} (h : pc.claims = some k) : ∃ c, pc.claim = some c ∧ c.k = k := by
  cases pc with
  | waitNext _ c | peekNext _ c | storeHeadBlock _ c | storeHeadIndex _ c | token c | waitWrite c
  | value c | mark c => exact ⟨c, rfl, Option.some.inj h⟩
  | _ => cases h

theorem claim_of_writes {k : Nat} (h : pc.writes = some k) : ∃ c, pc.claim = some c ∧ c.k = k := by
  cases pc with
  | storeBlock _ c | storeIndex _ c | storeNext _ c | write _ c | publish c =>
    exact ⟨c, rfl, Option.some.inj h⟩
  | _ => cases h

theorem fresh_roles (h : pc.fresh = true) : pc.carries = pc.claims ∧ pc.place = none := by
  cases pc with
  | idle | storeBlock | storeIndex | storeNext | write | publish | waitNext | peekNext
  | storeHeadBlock | storeHeadIndex | token | waitWrite => exact ⟨rfl, rfl⟩
  | _ => cases h

theorem settled_of_fresh (h : pc.fresh = true) : pc.settled = true := by
  cases pc with
  | value | mark | destroyLoad | destroyMark | free => rfl
  | _ => exact h

theorem AllClaimed.fits (h : AllClaimed s) (j : ι) (c : Claim) (hc : (s.pc j).claim = some c) :
    c.Fits := by
  obtain ⟨hblock, hoffset, hlt⟩ := h.claim j c hc
  have hlt : c.k < 31 := hlt
  constructor <;> omega

theorem AllClaimed.claims_lt (h : AllClaimed s) (j : ι) (k : Nat) (hk : (s.pc j).claims = some k) :
    k < 31 := by
  obtain ⟨c, hc, rfl⟩ := claim_of_claims hk
  exact (h.claim j c hc).2.2

theorem AllClaimed.not_done (h : AllClaimed s) (k : Nat) :
    ¬ Done s.claimed (fun j => (s.pc j).claims) k := by
  rw [h.claimed]
  rintro ⟨hlt, hnone⟩
  obtain ⟨i, hi⟩ := h.reader k hlt
  exact hnone i hi

theorem AllClaimed.slots_eq {k : Nat} (hk : k < 31) : s.slots k = (s.blocks 0).slot k := by
  rw [St.slots, show k / 31 = 0 by omega, show k % 31 = k by omega]

/-- The pushes of a block that is claimed. -/
theorem AllClaimed.writing (h : AllClaimed s) :
    Writing s.pushed (fun j => (s.pc j).writes) s.slots where
  held := by
    refine ⟨fun i k hk => ?_, h.oneWriter⟩
    obtain ⟨c, hc, rfl⟩ := claim_of_writes hk
    rw [h.length]
    exact (h.claim i c hc).2.2
  written k := by
    rw [Done, h.length]
    rcases Nat.lt_or_ge k 31 with hlt | hge
    · rw [slots_eq hlt, h.written k hlt]
      exact (and_iff_right hlt).symm
    · rw [St.slots, h.behind (k / 31) (k % 31) (by omega)]
      exact iff_of_false (by rintro ⟨⟩) fun hdone => absurd hdone.1 (Nat.not_lt.mpr hge)
  value k hk := by
    rcases Nat.lt_or_ge k 31 with hlt | hge
    · rw [slots_eq hlt] at hk ⊢
      exact h.value k hlt hk
    · rw [St.slots, h.behind (k / 31) (k % 31) (by omega)] at hk
      cases hk

/-- A block that is claimed meets the invariant. -/
theorem AllClaimed.core (h : AllClaimed s) : Core s where
  knows := h.knows
  writing := h.writing
  reading := by
    refine ⟨⟨fun i k hk => ?_, h.oneReader⟩, fun k hk => absurd hk (h.not_done k), fun k _ => ?_⟩
    · rw [h.claimed]
      exact h.claims_lt i k hk
    · rw [St.slots, (h.unmarked (k / 31) (k % 31)).1]
      exact iff_of_false (by rintro ⟨⟩) (h.not_done k)
  giving := by
    have hcarries (j : ι) := (fresh_roles (h.fresh j)).1
    rw [h.returned]
    refine ⟨⟨fun i k hk => ?_, fun i j k hi hj => ?_⟩, by rintro _ ⟨⟩, delivers_nil⟩
    · rw [h.claimed]
      exact h.claims_lt i k (by rwa [hcarries] at hk)
    · rw [hcarries] at hi hj
      exact h.oneReader i j k hi hj
  reclaim n := by
    refine .waiting (h.not_done _) (fun j => ?_) (fun o => (h.unmarked n o).2) (h.notFreed n)
    rw [Pc.cursor, (fresh_roles (h.fresh j)).2]
    rfl

theorem AllClaimed.oneBlock (h : AllClaimed s) : OneBlock s where
  core := h.core
  settled i := settled_of_fresh (h.fresh i)
  claim := h.fits
  length := h.length
  claimed := h.claimed
  misused := h.misused

variable [DecidableEq ι]

/-- What a step of these calls leaves alone. -/
structure Stays (s t : St ι V) (i : ι) (pc : Pc V) : Prop where
  moved : t.pc = update s.pc i pc
  settled : pc.settled = true
  claim : ∀ c, pc.claim = some c → (s.pc i).claim = some c
  pushed : t.pushed = s.pushed
  claimed : t.claimed = s.claimed

omit [DecidableEq ι] in
theorem destroyPc_settled (b o k : Nat) (msg : Option V) :
    (destroyPc b o k msg).settled = true ∧ (destroyPc b o k msg).claim = none := by
  unfold destroyPc
  split <;> exact ⟨rfl, rfl⟩

omit [DecidableEq ι] in
theorem gotPc_settled (select : Bool) (c : Claim) :
    (gotPc select c : Pc V).settled = true ∧ (gotPc select c : Pc V).claim = some c := by
  cases select <;> exact ⟨rfl, rfl⟩

theorem stays_of_looks {b : Nat} (hlooks : Looks s (s.pc i) b pc) :
    Stays s (s.access b (s.blocks b) i pc) i pc := by
  refine ⟨rfl, ?_, fun c hc => ?_, rfl, rfl⟩
  · generalize s.pc i = p at hlooks
    cases hlooks with
    | valueLast | pass => exact (destroyPc_settled ..).1
    | _ => rfl
  · rcases hlooks.edges.2 with hsame | hnone
    · rwa [← hsame]
    · rw [hnone] at hc
      cases hc

/-- The end of a call stays with its slot. -/
theorem stays_of_goes (hs : (s.pc i).settled = true) (h : Goes s i t) : ∃ pc, Stays s t i pc := by
  have hdestroy {b o k : Nat} {msg : Option V} (c : Claim)
      (hc : (destroyPc b o k msg).claim = some c) : (s.pc i).claim = some c := by
    rw [(destroyPc_settled b o k msg).2] at hc
    cases hc
  cases h with
  | loads pc hloads =>
    generalize hpc : s.pc i = p at hloads hs
    cases hloads with
    | redeem c => exact ⟨_, rfl, rfl, fun c' hc' => by rw [hpc]; exact hc', rfl, rfl⟩
    | _ => cases hs
  | looks b pc hlooks => exact ⟨pc, stays_of_looks hlooks⟩
  | casFirst _ _ hpc | storeFirst _ _ _ hpc | cas _ _ _ hpc | casLast _ _ _ hpc
  | popCas _ _ _ _ hpc =>
    rw [hpc] at hs
    cases hs
  | storeBlock _ _ _ _ hpc | storeIndex _ _ _ _ hpc | storeNext _ _ _ hpc | write _ _ hpc
  | storeHeadBlock _ _ _ _ hpc =>
    exact ⟨_, rfl, rfl, fun c' hc' => by rw [hpc]; exact hc', rfl, rfl⟩
  | publish => exact ⟨.idle, rfl, rfl, by rintro _ ⟨⟩, rfl, rfl⟩
  | storeHeadIndex select c _ hpc =>
    obtain ⟨hsettled, hclaim⟩ := gotPc_settled (V := V) select c
    exact ⟨_, rfl, hsettled, fun c' hc' => by rw [hpc]; exact hclaim.symm.trans hc', rfl, rfl⟩
  | resume | passMark => exact ⟨_, rfl, (destroyPc_settled ..).1, hdestroy, rfl, rfl⟩
  | mark | leave | free => exact ⟨.idle, give_access, rfl, by rintro _ ⟨⟩, rfl, rfl⟩

variable {a : Act ι V}

/-- A step of these calls. -/
theorem moves_of_step (h : OneBlock s) (hst : blockStep s a = some t) :
    ∃ i, Move s i t ∧ ∃ pc, Stays s t i pc := by
  have hgoes : Goes s a.agent t := by
    cases a with
    | redeem i => exact goes_of_redeem hst
    | go i spurious => exact goes_of_go hst
    | push | pop | select => cases hst
  exact ⟨_, move_of_goes h.claim hgoes, stays_of_goes (h.settled _) hgoes⟩

omit [DecidableEq ι] in
/-- The blocks behind have no reader yet. -/
theorem OneBlock.not_freed_behind (h : OneBlock s) {n : Nat} (hn : n ≠ 0) :
    (s.blocks n).freed = false := by
  rw [Bool.eq_false_iff]
  intro hfreed
  rw [show n = 31 * n / 31 by omega] at hfreed
  have hlt := (h.core.done_of_freed hfreed).1
  rw [h.claimed] at hlt
  omega

omit [DecidableEq ι] in
/-- Nobody touches a freed block. -/
theorem OneBlock.not_freed_of_touches (h : OneBlock s) {b : Nat} (hi : (s.pc i).touches = some b) :
    (s.blocks b).freed = false := by
  refine h.core.not_freed_of_touches h.claim (fun select c newHead next hpc => ?_) hi
  have hclaims : (s.pc i).claims = some c.k := by
    rw [hpc]
    rfl
  rcases eq_or_ne next 0 with rfl | hne
  · have hfreed := h.core.not_freed_of_claims hclaims
    have hlt := h.core.reading.held.lt i c.k hclaims
    rw [h.claimed] at hlt
    rwa [show c.k / 31 = 0 by omega] at hfreed
  · exact h.not_freed_behind hne

/-- **Every step keeps the block in order.** -/
theorem oneBlock_of_step (h : OneBlock s) (hst : blockStep s a = some t) : OneBlock t := by
  obtain ⟨i, hmove, pc, hstays⟩ := moves_of_step h hst
  have horder : s.claimed ≤ s.pushed.length := by rw [h.claimed, h.length]
  refine ⟨h.core.move h.claim horder hmove, ?_, ?_, ?_, ?_, ?_⟩
  · rw [hstays.moved]
    exact forall_phase (P := fun pc : Pc V => pc.settled = true) (fun j _ => h.settled j)
      hstays.settled
  · rw [hstays.moved]
    exact forall_phase (P := fun pc : Pc V => ∀ c, pc.claim = some c → c.Fits)
      (fun j _ => h.claim j) fun c hc => h.claim i c (hstays.claim c hc)
  · rw [hstays.pushed, h.length]
  · rw [hstays.claimed, h.claimed]
  · rcases hmove.misused_eq h.claim with hsame | ⟨b, htouches, hor⟩
    · rw [hsame, h.misused]
    · rw [hor, h.misused, h.not_freed_of_touches htouches]
      rfl

theorem oneBlock_of_reach (h : Reachable blockSystem s) : OneBlock s := by
  refine h.invariant (P := OneBlock) (fun s hs => ?_) fun s a t hs _ hst => oneBlock_of_step hs hst
  have hs : AllClaimed s := hs
  exact hs.oneBlock

/-! ## The block is freed once -/

/-- Only the step that frees frees. -/
theorem Move.freed_eq (h : Move s i t) (hnot : (s.pc i).isFree = false) (n : Nat) :
    (t.blocks n).freed = (s.blocks n).freed := by
  have haccess {b : Nat} {block : Block V} (hfreed : block.freed = (s.blocks b).freed) :
      (update s.blocks b block n).freed = (s.blocks n).freed :=
    field_update Block.freed hfreed n
  cases h with
  | still _ _ _ _ _ hfreed => exact hfreed n
  | cas _ _ _ _ _ hblocks | popCas _ _ _ _ hblocks => rw [hblocks]
  | free _ _ _ hpc =>
    rw [hpc] at hnot
    cases hnot
  | write | publish | mark | resume => exact haccess rfl
  | value | valueLast | pass | passMark | leave => exact haccess rfl

omit [DecidableEq ι] in
/-- The block that a call is about to free is claimed to its end, and is not freed yet. -/
theorem Core.of_free (h : Core s) {b k : Nat} {msg : Option V} (hpc : s.pc i = .free b k msg) :
    31 * b + 30 < s.claimed ∧ (s.blocks b).freed = false := by
  have hcursor : (s.pc i).cursor b = some 30 := by
    rw [hpc]
    exact if_pos rfl
  obtain ⟨hlast, _, _, _, _, hfreed⟩ := (h.reclaim b).of_cursor hcursor
  exact ⟨hlast.1, hfreed⟩

/-- A step frees a block at most once. -/
theorem freed_of_go {spurious : Bool} (hfits : ∀ j c, (s.pc j).claim = some c → c.Fits)
    (h : Core s) (hst : step s (.go i spurious) = some t) (n : Nat) :
    (t.blocks n).freed.toNat = (s.blocks n).freed.toNat + ((s.pc i).freesBlock n).toNat := by
  cases hfree : (s.pc i).isFree with
  | false =>
    have hnone : (s.pc i).freesBlock n = false := by
      cases hpc : s.pc i <;> simp_all [Pc.isFree, Pc.freesBlock]
    rw [(move_of_goes hfits (goes_of_go hst)).freed_eq hfree, hnone]
    rfl
  | true =>
    cases hpc : s.pc i with
    | free b k msg =>
      have hfreed := (h.of_free hpc).2
      simp only [step, hpc, stepPush, stepPop, stepRead, Option.none_or, Option.some.injEq] at hst
      subst hst
      rcases eq_or_ne n b with rfl | hne
      · simp [St.give, St.access, Pc.freesBlock, hfreed]
      · simp [St.give, St.access, Pc.freesBlock, update_of_ne hne, hne.symm]
    | _ => simp [hpc, Pc.isFree] at hfree

/-- **A step frees a block at most once**, in a whole queue too. -/
theorem freed_of_step (hfits : ∀ j c, (s.pc j).claim = some c → c.Fits) (h : Core s)
    (hst : step s a = some t) (n : Nat) :
    (t.blocks n).freed.toNat = (s.blocks n).freed.toNat + freesBlock n s a := by
  cases a with
  | go i spurious => exact freed_of_go hfits h hst n
  | redeem | push | pop | select =>
    simp only [step] at hst
    split at hst <;> cases hst
    rfl

/-- The count of frees is right. -/
theorem OneBlock.freed_of_step (h : OneBlock s) (hst : blockStep s a = some t) :
    (t.blocks 0).freed.toNat = (s.blocks 0).freed.toNat + frees s a := by
  have hone : freesBlock 0 s a = frees s a := by
    cases a with
    | go i spurious =>
      rw [freesBlock, frees]
      cases hpc : s.pc i with
      | free b k msg =>
        have hlt := (h.core.of_free hpc).1
        rw [h.claimed] at hlt
        obtain rfl : b = 0 := by omega
        rfl
      | _ => rfl
    | redeem | push | pop | select => rfl
  rw [← hone]
  refine SegQueue.freed_of_step h.claim h.core ?_ 0
  cases a with
  | redeem | go => exact hst
  | push | pop | select => cases hst

omit [DecidableEq ι] in
/-- When nobody reads or destroys the block any more, it is freed. -/
theorem Core.freed_of_quiet {n : Nat} (h : Core s) (hclaimed : 31 * n + 30 < s.claimed)
    (hclaims : ∀ i k, (s.pc i).claims = some k → k / 31 ≠ n)
    (hcursor : ∀ i, (s.pc i).cursor n = none) : (s.blocks n).freed = true := by
  have hdone {k : Nat} (hk : k / 31 = n) : Done s.claimed (fun j => (s.pc j).claims) k :=
    ⟨by omega, fun i hi => hclaims i k hi hk⟩
  cases h.reclaim n with
  | waiting hlast => exact absurd (hdone (by omega)) hlast
  | busy i c _ hi =>
    rw [hcursor i] at hi
    cases hi
  | left c _ _ hc _ hnot =>
    have hread : (s.slots (31 * n + c)).read = true :=
      (h.reading.read _ (by omega)).mpr (hdone (by omega))
    rw [slots_at (by omega)] at hread
    rw [Block.reads, hread] at hnot
    cases hnot
  | done _ _ _ hfreed => exact hfreed

omit [DecidableEq ι] in
theorem roles_of_carries (h : pc.carries = none) : pc.claims = none ∧ pc.place = none := by
  cases pc with
  | waitNext | peekNext | storeHeadBlock | storeHeadIndex | token | waitWrite | value | mark
  | destroyLoad | destroyMark | free => cases h
  | _ => exact ⟨rfl, rfl⟩

/-- A block all of whose slots are claimed, and any order of the steps of its pushes, of the `pop`
calls and of the tokens, redeemed or not. The number of times it was freed is one if it is freed and
zero otherwise. No freed block was ever accessed. When it is freed, every slot was written and read,
and no call is about to access it. When every reader has returned, it is freed. -/
theorem destroy_frees_once {p : St ι V × Nat × Nat}
    (h : Reach ((blockSystem : System (St ι V) (Act ι V)).tally frees fun _ _ => 0)
      (fun _ _ => True) p) :
    p.2.1 = (p.1.blocks 0).freed.toNat ∧ p.1.misused = false ∧
    ((p.1.blocks 0).freed = true →
      (∀ o, o < blockCap → ((p.1.blocks 0).slot o).written = true) ∧
      ∀ i, (p.1.pc i).claims = none ∧ (p.1.pc i).writes = none ∧ (p.1.pc i).touches ≠ some 0) ∧
    ((∀ i, (p.1.pc i).carries = none) → p.2.1 = 1) := by
  have hreach : Reachable blockSystem p.1 := h.of_tally
  have hone := oneBlock_of_reach hreach
  have hstart (s : St ι V) (hs : AllClaimed s) : (s.blocks 0).freed.toNat = 0 := by
    rw [hs.notFreed 0]
    rfl
  -- each step adds to the tally what it adds to `freed`
  have hcount : p.2.1 = (p.1.blocks 0).freed.toNat :=
    Reach.added_eq (M := blockSystem) (fun s => (s.blocks 0).freed.toNat) hstart
      (fun s a t hs _ hst => (oneBlock_of_reach hs).freed_of_step hst) h
  refine ⟨hcount, hone.misused, fun hfreed => ?_, fun hcarries => ?_⟩
  -- a freed block is read to its end, so no claim of it is left
  · have hdone (o : Nat) (ho : o < 31) : Done p.1.claimed (fun j => (p.1.pc j).claims) o := by
      refine hone.core.done_of_freed ?_
      rwa [show o / 31 = 0 by omega]
    have hwritten (o : Nat) (ho : o < 31) := hone.core.reading.finished o (hdone o ho)
    refine ⟨fun o ho => ?_, fun i => ⟨?_, ?_, fun htouches => ?_⟩⟩
    · rw [← AllClaimed.slots_eq ho]
      exact hwritten o ho
    · refine Option.eq_none_iff_forall_ne_some.mpr fun k hk => ?_
      have hlt := hone.core.reading.held.lt i k hk
      rw [hone.claimed] at hlt
      exact (hdone k hlt).2 i hk
    · refine Option.eq_none_iff_forall_ne_some.mpr fun k hk => ?_
      have hlt := hone.core.writing.held.lt i k hk
      rw [hone.length] at hlt
      exact ((hone.core.writing.written k).mp (hwritten k hlt)).2 i hk
    · rw [hone.not_freed_of_touches htouches] at hfreed
      cases hfreed
  · have hroles (i : ι) := roles_of_carries (hcarries i)
    have hfreed : (p.1.blocks 0).freed = true := by
      refine hone.core.freed_of_quiet (by rw [hone.claimed]; omega) (fun i k hk => ?_) fun i => ?_
      · rw [(hroles i).1] at hk
        cases hk
      · rw [Pc.cursor, (hroles i).2]
        rfl
    rw [hcount, hfreed]
    rfl

/-- Each of 31 threads has the token of one slot of a block that is written completely. -/
def tokens : St (Fin 31) Nat where
  headIndex := 64
  headBlock := some 1
  tailIndex := 64
  tailBlock := some 1
  blocks n := if n = 0 then ⟨some 1, fun o => ⟨some o, true, false, false⟩, false⟩ else .new
  installed := 2
  pc i := .token ⟨0, i, i⟩
  pushed := List.range 31
  claimed := 31
  returned := []
  misused := false

/-- A block with all messages as tokens. -/
theorem allClaimed_tokens : AllClaimed tokens where
  length := rfl
  claimed := rfl
  returned := rfl
  misused := rfl
  fresh _ := rfl
  claim i c hc := by
    cases hc
    exact ⟨rfl, rfl, i.isLt⟩
  reader o ho := ⟨⟨o, ho⟩, rfl⟩
  oneReader i j o hi hj := Fin.ext (Option.some.inj (hi.trans hj.symm))
  oneWriter i j o hi := nomatch hi
  written o _ := iff_of_true rfl fun i => nofun
  value o ho _ := by
    have ho : o < 31 := ho
    exact (List.getElem?_range ho).symm
  knows _ := trivial
  unmarked n o := by
    show ((if n = 0 then _ else _ : Block Nat).slot o).read = false ∧ _
    by_cases hn : n = 0 <;> simp [tokens, hn, Block.new]
  notFreed n := by
    by_cases hn : n = 0 <;> simp [tokens, hn, Block.new]
  behind n o hn := by simp [tokens, hn, Block.new]

/-- The last slot is read first, and its reader leaves the block to the reader of the first slot,
which reads last, goes through the marks of the others and frees the block. -/
theorem destroy_frees_once_last_first :
    ∃ p : St (Fin 31) Nat × Nat × Nat,
      Reach (blockSystem.tally frees fun _ _ => 0) (fun _ _ => True) p ∧
        (∀ i, (p.1.pc i).carries = none) ∧ p.2.1 = 1 ∧ (p.1.blocks 0).freed = true := by
  have hinit : Reach ((blockSystem : System (St (Fin 31) Nat) (Act (Fin 31) Nat)).tally frees
      fun _ _ => 0) (fun _ _ => True) (tokens, 0, 0) := .init ⟨allClaimed_tokens, rfl⟩
  obtain ⟨p, hp, hquiet⟩ := hinit.exists_of_run
    ([.redeem 30, .go 30 false, .go 30 false, .go 30 false, .go 30 false] ++
      ((List.finRange 31).filter fun i => decide (0 < i ∧ i < 30)).flatMap (fun i =>
        [.redeem i, .go i false, .go i false, .go i false]) ++
      .redeem 0 :: List.replicate 33 (.go 0 false))
    (fun p => ∀ i, (p.1.pc i).carries = none) (by decide +kernel)
  obtain ⟨hcount, _, _, hone⟩ := destroy_frees_once hp
  refine ⟨p, hp, hquiet, hone hquiet, ?_⟩
  rw [hone hquiet] at hcount
  cases hfreed : (p.1.blocks 0).freed with
  | true => rfl
  | false =>
    rw [hfreed] at hcount
    cases hcount

end Calls

/-! ## In a whole queue -/

section Queue

variable {ι V : Type} {s t : St ι V} {i : ι}

/-- A call that destroys a block is going to return a message of that block. -/
def Pc.OwnsPlace (pc : Pc V) : Prop :=
  ∀ b o, pc.place = some (b, o) → ∃ k, pc.carries = some k ∧ k / 31 = b

theorem ownsPlace_of_none {pc : Pc V} (h : pc.place = none) : pc.OwnsPlace := by
  intro b o hplace
  rw [h] at hplace
  cases hplace

theorem ownsPlace_destroyPc {b o k : Nat} {msg : Option V} (hb : k / 31 = b) :
    (destroyPc b o k msg).OwnsPlace := by
  unfold destroyPc
  split <;>
  · intro b' o' hplace
    cases hplace
    exact ⟨k, rfl, hb⟩

theorem carries_of_claims {pc : Pc V} {k : Nat} (h : pc.claims = some k) :
    pc.carries = some k := by
  cases pc with
  | waitNext | peekNext | storeHeadBlock | storeHeadIndex | token | waitWrite | value | mark =>
    exact h
  | _ => cases h

variable [DecidableEq ι]

/-- A token keeps its place. -/
theorem ownsPlace_of_move (hfits : ∀ j c, (s.pc j).claim = some c → c.Fits)
    (h : ∀ j, (s.pc j).OwnsPlace) (hmove : Move s i t) (j : ι) : (t.pc j).OwnsPlace := by
  have hstep {pc : Pc V} (hpc : t.pc = update s.pc i pc) (hi : pc.OwnsPlace) :
      (t.pc j).OwnsPlace := by
    rw [hpc]
    exact forall_phase (fun j _ => h j) hi j
  have hdestroy {b o k : Nat} {msg : Option V} (hplace : (s.pc i).place = some (b, o))
      (hcarries : (s.pc i).carries = some k) : (destroyPc b (o + 1) k msg).OwnsPlace := by
    obtain ⟨k', hk', hb⟩ := h i b o hplace
    cases hcarries.symm.trans hk'
    exact ownsPlace_destroyPc hb
  cases hmove with
  | still _ pc hpc _ _ _ hroles =>
    obtain ⟨_, _, hcarries, hplace⟩ := roles_eq hroles
    refine hstep hpc fun b o hb => ?_
    rw [hcarries]
    exact h i b o (hplace ▸ hb)
  | cas _ _ pc hpc _ _ _ hroles | popCas _ pc hpc _ _ _ hroles =>
    exact hstep hpc (ownsPlace_of_none (roles_eq hroles).2.2.2)
  | write | publish | value => exact hstep rfl (ownsPlace_of_none rfl)
  | mark | leave | free => exact hstep give_access (ownsPlace_of_none rfl)
  | valueLast c hpc | resume c _ _ hpc =>
    exact hstep rfl (ownsPlace_destroyPc (hfits i c (by rw [hpc]; rfl)).block.symm)
  | pass b o k msg hpc | passMark b o k msg _ hpc =>
    exact hstep rfl (hdestroy (by rw [hpc]; rfl) (by rw [hpc]; rfl))

/-- Every agent has the place of its message. -/
theorem ownsPlace_of_reach (h : Reach system indexOk s) : ∀ j, (s.pc j).OwnsPlace := by
  have hboth : Inv s ∧ ∀ j, (s.pc j).OwnsPlace := by
    refine h.invariant (P := fun s => Inv s ∧ ∀ j, (s.pc j).OwnsPlace) (fun s hs => ?_)
      fun s a t hinv hok hst => ?_
    · cases hs
      exact ⟨core_new.inv positions_new, fun _ => ownsPlace_of_none rfl⟩
    · obtain ⟨i, hmove⟩ := move_of_step hinv.1.positions.claim hst
      exact ⟨inv_of_step hinv.1 hok hst, ownsPlace_of_move hinv.1.positions.claim hinv.2 hmove⟩
  exact hboth.2

/-- A block is freed when all its messages are returned. -/
theorem freed_of_returned (h : Reach system indexOk s) {n : Nat}
    (hreturned : ∀ o, o < 31 → 31 * n + o ∈ s.returned.map Prod.fst) :
    (s.blocks n).freed = true := by
  have hcore := (inv_of_reach h).core
  have hgone {k : Nat} (hk : k / 31 = n) (i : ι) : (s.pc i).carries ≠ some k := by
    have hmem := hreturned (k % 31) (Nat.mod_lt k (by decide))
    rw [show 31 * n + k % 31 = k by omega] at hmem
    exact (hcore.giving.given k hmem).2 i
  refine hcore.freed_of_quiet (hcore.giving.given _ (hreturned 30 (by decide))).1
    (fun i k hk heq => hgone heq i (carries_of_claims hk)) fun i => ?_
  cases hplace : (s.pc i).place with
  | none => rw [Pc.cursor, hplace]; rfl
  | some place =>
    obtain ⟨b, o⟩ := place
    obtain ⟨k, hk, hb⟩ := ownsPlace_of_reach h i b o hplace
    rw [Pc.cursor, hplace]
    exact slotIn_ne (fun heq => hgone (hb.trans heq) i hk) o

/-- **Every block of a queue is freed at most once**, as long as no index has come around: the
number of times block `n` was freed is one if it is freed and zero otherwise. No freed block was
ever accessed. When all messages of the block are returned, it is freed. -/
theorem segQueue_frees_once (n : Nat) {p : St ι V × Nat × Nat}
    (h : Reach ((system : System (St ι V) (Act ι V)).tally (freesBlock n) fun _ _ => 0)
      (fun p a => indexOk p.1 a) p) :
    p.2.1 = (p.1.blocks n).freed.toNat ∧ p.1.misused = false ∧
      ((∀ o, o < blockCap → blockCap * n + o ∈ p.1.returned.map Prod.fst) → p.2.1 = 1) := by
  have hcount := h.added_eq (fun s => (s.blocks n).freed.toNat) (by rintro _ rfl; rfl)
    fun s a t hs _ hst =>
      freed_of_step (inv_of_reach hs).positions.claim (inv_of_reach hs).core hst n
  refine ⟨hcount, not_misused_of_reach h.of_tally, fun hreturned => ?_⟩
  rw [hcount, freed_of_returned h.of_tally hreturned]
  rfl

/-- A block is filled and emptied by one thread: its last pop frees it. -/
theorem segQueue_frees_once_full : ∃ p : St Unit Nat × Nat × Nat,
      Reach ((system : System (St Unit Nat) (Act Unit Nat)).tally (freesBlock 0) fun _ _ => 0)
        (fun p a => indexOk p.1 a) p ∧
      (∀ o, o < blockCap → blockCap * 0 + o ∈ p.1.returned.map Prod.fst) ∧ p.2.1 = 1 := by
  have hnew : Reach ((system : System (St Unit Nat) (Act Unit Nat)).tally (freesBlock 0)
      fun _ _ => 0) (fun p a => indexOk p.1 a) (St.new, 0, 0) := .init ⟨rfl, rfl⟩
  let go (n : Nat) : List (Act Unit Nat) := List.replicate n (.go () false)
  obtain ⟨p, hp, hreturned⟩ := hnew.exists_of_run
    (.push () 0 :: go 7 ++ (List.range 29).flatMap (fun _ => .push () 0 :: go 5) ++
      .push () 0 :: go 8 ++ .pop () false :: go 7 ++
      (List.range 29).flatMap (fun _ => .pop () false :: go 6) ++ .pop () false :: go 40)
    (fun p => ∀ o, o < blockCap → blockCap * 0 + o ∈ p.1.returned.map Prod.fst)
    (by decide +kernel)
  exact ⟨p, hp, hreturned, (segQueue_frees_once 0 hp).2.2 hreturned⟩

end Queue

end Crossfire.SegQueue
