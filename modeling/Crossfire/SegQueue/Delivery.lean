import Crossfire.Lib.Fifo
import Crossfire.Lib.Tickets
import Crossfire.Lib.Handover
import Crossfire.SegQueue.Steps

/-!
# What a `SegQueue` delivers

A push that claims a slot writes it and marks it `WRITE`; a pop or a token that claims a slot waits
for the mark, reads the value and marks the slot `READ`, or starts to destroy the block if the slot
is the last one. Between the claim and the mark a call holds the number of its message (`Writing`,
`Reading`), and until it returns it carries the message (`Giving`). A block is destroyed by one call
at a time, which hands over to the readers that are still at a slot (`St.Reclaim`).

Hence in every run in which so few messages are pushed that no index comes around, each message is
returned at most once and as it was pushed (`delivers_of_reach`), and no call accesses a block that
is freed (`not_misused_of_reach`).
-/

set_option autoImplicit false

namespace Crossfire.SegQueue

open Lib.Interleaving Function
open Lib.Fifo
open Lib.Tickets
open Lib.Handover

/-! ## Slots -/

section Slots

variable {ι V : Type} {pushed : List V} {claimed k : Nat} {writes claims carries : ι → Option Nat}
  {slots slots' : Nat → Slot V} {returned : List (Nat × Option V)} {i : ι} {v : V}

/-- A slot is marked `WRITE` once its push is finished with it, and then it has the message. -/
structure Writing (pushed : List V) (writes : ι → Option Nat) (slots : Nat → Slot V) : Prop where
  held : Held pushed.length writes
  written : ∀ k, (slots k).written = true ↔ Done pushed.length writes k
  value : ∀ k, (slots k).written = true → (slots k).value = pushed[k]?

/-- A slot other than the last of a block is marked `READ` once its pop is finished with it. -/
structure Reading (claimed : Nat) (claims : ι → Option Nat) (slots : Nat → Slot V) : Prop where
  held : Held claimed claims
  finished : ∀ k, Done claimed claims k → (slots k).written = true
  read : ∀ k, k % 31 ≠ 30 → ((slots k).read = true ↔ Done claimed claims k)

/-- A message is returned when nobody carries it any more. -/
structure Giving (pushed : List V) (claimed : Nat) (carries : ι → Option Nat)
    (returned : List (Nat × Option V)) : Prop where
  held : Held claimed carries
  given : ∀ k ∈ returned.map Prod.fst, Done claimed carries k
  delivers : Delivers pushed returned

/-- Only written bits and values matter. -/
theorem Writing.congr (h : Writing pushed writes slots)
    (hwritten : ∀ k, (slots' k).written = (slots k).written)
    (hvalue : ∀ k, (slots' k).value = (slots k).value) : Writing pushed writes slots' :=
  ⟨h.held, fun k => by rw [hwritten]; exact h.written k,
    fun k hk => by rw [hvalue]; exact h.value k (hwritten k ▸ hk)⟩

/-- The value of a slot is written. -/
theorem Writing.write {slot : Slot V} (h : Writing pushed writes slots) (hi : writes i = some k)
    (hmark : slot.written = (slots k).written) :
    Writing pushed writes (update slots k slot) := by
  have hnot : ¬ (slots k).written = true := fun hk => not_done_of_holds hi ((h.written k).mp hk)
  have hsame (n : Nat) : (update slots k slot n).written = (slots n).written :=
    field_update Slot.written hmark n
  refine ⟨h.held, fun n => by rw [hsame]; exact h.written n, fun n hn => ?_⟩
  rw [hsame] at hn
  have hnk : n ≠ k := by
    rintro rfl
    exact hnot hn
  rw [update_of_ne hnk]
  exact h.value n hn

theorem Reading.congr (h : Reading claimed claims slots)
    (hwritten : ∀ k, (slots k).written = true → (slots' k).written = true)
    (hread : ∀ k, (slots' k).read = (slots k).read) : Reading claimed claims slots' :=
  ⟨h.held, fun k hk => hwritten k (h.finished k hk), fun k hk => by rw [hread]; exact h.read k hk⟩

theorem Reading.not_read (h : Reading claimed claims slots) (hi : claims i = some k)
    (hin : k % 31 ≠ 30) : (slots k).read = false := by
  rw [Bool.eq_false_iff]
  exact fun hread => not_done_of_holds hi ((h.read k hin).mp hread)

theorem Giving.push (h : Giving pushed claimed carries returned) :
    Giving (pushed ++ [v]) claimed carries returned :=
  ⟨h.held, h.given, h.delivers.push v⟩

variable [DecidableEq ι]

/-- A push claims a slot. -/
theorem Writing.push (h : Writing pushed writes slots) (hi : writes i = none) :
    Writing (pushed ++ [v]) (update writes i (some pushed.length)) slots := by
  have hlength : (pushed ++ [v]).length = pushed.length + 1 := List.length_append
  refine ⟨by rw [hlength]; exact h.held.take, fun k => ?_, fun k hk => ?_⟩
  · rw [hlength, done_take hi]
    exact h.written k
  · rw [List.getElem?_append_left ((h.written k).mp hk).1]
    exact h.value k hk

/-- A slot is marked `WRITE`. -/
theorem Writing.publish {slot : Slot V} (h : Writing pushed writes slots) (hi : writes i = some k)
    (hvalue : slot.value = pushed[k]?) (hmark : slot.written = true) :
    Writing pushed (update writes i none) (update slots k slot) := by
  refine ⟨h.held.drop, fun n => ?_, fun n hn => ?_⟩
  · rw [h.held.done_drop hi]
    by_cases hnk : n = k
    · subst hnk
      rw [update_self]
      exact iff_of_true hmark (.inr rfl)
    · rw [update_of_ne hnk, or_iff_left hnk]
      exact h.written n
  · by_cases hnk : n = k
    · subst hnk
      rw [update_self]
      exact hvalue
    · rw [update_of_ne hnk] at hn ⊢
      exact h.value n hn

/-- A pop claims a slot. -/
theorem Reading.take (h : Reading claimed claims slots) (hi : claims i = none) :
    Reading (claimed + 1) (update claims i (some claimed)) slots :=
  ⟨h.held.take, fun k hk => h.finished k ((done_take hi).mp hk),
    fun k hk => (h.read k hk).trans (done_take hi).symm⟩

/-- The last slot of a block has been read. -/
theorem Reading.finishLast (h : Reading claimed claims slots) (hi : claims i = some k)
    (hlast : k % 31 = 30) (hwritten : (slots k).written = true) :
    Reading claimed (update claims i none) slots := by
  refine ⟨h.held.drop, fun n hn => ?_, fun n hn => ?_⟩
  · rcases (h.held.done_drop hi).mp hn with hn | rfl
    · exact h.finished n hn
    · exact hwritten
  · have hnk : n ≠ k := fun heq => hn (heq ▸ hlast)
    rw [h.held.done_drop hi, or_iff_left hnk]
    exact h.read n hn

/-- Another slot has been read and is marked `READ`. -/
theorem Reading.finish {slot : Slot V} (h : Reading claimed claims slots) (hi : claims i = some k)
    (hwritten : slot.written = true) (hread : slot.read = true) :
    Reading claimed (update claims i none) (update slots k slot) := by
  refine ⟨h.held.drop, fun n hn => ?_, fun n hn => ?_⟩
  · by_cases hnk : n = k
    · subst hnk
      rw [update_self]
      exact hwritten
    · rw [update_of_ne hnk]
      exact h.finished n (((h.held.done_drop hi).mp hn).resolve_right hnk)
  · rw [h.held.done_drop hi]
    by_cases hnk : n = k
    · subst hnk
      rw [update_self]
      exact iff_of_true hread (.inr rfl)
    · rw [update_of_ne hnk, or_iff_left hnk]
      exact h.read n hn

theorem Giving.take (h : Giving pushed claimed carries returned) (hi : carries i = none) :
    Giving pushed (claimed + 1) (update carries i (some claimed)) returned :=
  ⟨h.held.take, fun k hk => (done_take hi).mpr (h.given k hk), h.delivers⟩

/-- A call returns. -/
theorem Giving.give (h : Giving pushed claimed carries returned) (hi : carries i = some k)
    (hle : claimed ≤ pushed.length) :
    Giving pushed claimed (update carries i none) (returned ++ [(k, pushed[k]?)]) := by
  refine ⟨h.held.drop, fun n hn => ?_,
    h.delivers.hand ((h.held.lt i k hi).trans_le hle) fun hk => ?_⟩
  · rw [h.held.done_drop hi]
    rw [List.map_append, List.mem_append] at hn
    exact hn.imp (h.given n) List.mem_singleton.mp
  · exact not_done_of_holds hi (h.given k hk)

end Slots

/-! ## What a call knows -/

section Knows

variable {V : Type} {pc : Pc V} {pushed : List V} {slots : Nat → Slot V} {k : Nat}

/-- A push moves no other agent. -/
theorem Pc.Knows.push {v : V} (h : pc.Knows pushed slots)
    (hwrites : ∀ k, pc.writes = some k → k < pushed.length)
    (hcarries : ∀ k, pc.carries = some k → k < pushed.length) :
    pc.Knows (pushed ++ [v]) slots := by
  cases pc with
  | storeBlock _ c | storeIndex _ c | storeNext _ c | write _ c | publish c =>
    simp only [Pc.Knows, List.getElem?_append_left (hwrites c.k rfl)]
    exact h
  | mark c _ =>
    simp only [Pc.Knows, List.getElem?_append_left (hcarries c.k rfl)]
    exact h
  | destroyLoad _ _ k | destroyMark _ _ k | free _ k =>
    simp only [Pc.Knows, List.getElem?_append_left (hcarries k rfl)]
    exact h
  | _ => exact h

/-- A slot changes under an agent. -/
theorem Pc.Knows.setSlot {slot : Slot V} (h : pc.Knows pushed slots)
    (hwritten : (slots k).written = true → slot.written = true)
    (hvalue : pc.writes = some k → slot.value = (slots k).value) :
    pc.Knows pushed (update slots k slot) := by
  have hset {n : Nat} (hn : (slots n).written = true) :
      (update slots k slot n).written = true := by
    by_cases hnk : n = k
    · subst hnk
      rw [update_self]
      exact hwritten hn
    · rwa [update_of_ne hnk]
  cases pc with
  | publish c =>
    have hsame : (update slots k slot c.k).value = (slots c.k).value := by
      by_cases hnk : c.k = k
      · rw [hnk, update_self]
        exact hvalue (congrArg some hnk)
      · rw [update_of_ne hnk]
    exact hsame.trans h
  | value c => exact hset h
  | mark c msg => exact ⟨hset h.1, h.2⟩
  | _ => exact h

theorem idle_roles : (Pc.idle : Pc V).roles = (none, none, none, none) := rfl

theorem destroyPc_roles {b o : Nat} {msg : Option V} (ho : o ≤ 30) :
    (destroyPc b o k msg).roles = (none, none, some k, some (b, o)) := by
  unfold destroyPc
  split
  · rfl
  · next hge =>
      obtain rfl : o = 30 := by
        rw [show blockCap = 31 from rfl] at hge
        omega
      rfl

theorem destroyPc_knows {b o : Nat} {msg : Option V} (hmsg : msg = pushed[k]?) :
    (destroyPc b o k msg).Knows pushed slots := by
  unfold destroyPc
  split
  · next hlt => exact ⟨hlt, hmsg⟩
  · exact hmsg

end Knows

/-! ## Blocks -/

section Blocks

variable {V : Type}

/-- `READ` of slot `o`. -/
def Block.reads (b : Block V) (o : Nat) : Bool := (b.slot o).read

/-- `DESTROY` of slot `o`. -/
def Block.destroys (b : Block V) (o : Nat) : Bool := (b.slot o).destroy

theorem reads_setSlot (b : Block V) (o : Nat) (slot : Slot V) :
    (b.setSlot o slot).reads = update b.reads o slot.read :=
  map_update Slot.read o slot

theorem destroys_setSlot (b : Block V) (o : Nat) (slot : Slot V) :
    (b.setSlot o slot).destroys = update b.destroys o slot.destroy :=
  map_update Slot.destroy o slot

end Blocks

/-! ## The invariant -/

section Invariant

variable {ι V : Type} {s t : St ι V} {i : ι} {pc : Pc V}

/-- How far block `n` is destroyed. -/
def St.Reclaim (s : St ι V) (n : Nat) : Prop :=
  Cleanup 30 (Done s.claimed (fun j => (s.pc j).claims) (31 * n + 30))
    (fun j => (s.pc j).cursor n) (s.blocks n).reads (s.blocks n).destroys (s.blocks n).freed

/-- The positions, and who writes, reads and reclaims each slot. -/
structure Inv (s : St ι V) : Prop where
  positions : Positions s
  knows : ∀ j, (s.pc j).Knows s.pushed s.slots
  writing : Writing s.pushed (fun j => (s.pc j).writes) s.slots
  reading : Reading s.claimed (fun j => (s.pc j).claims) s.slots
  giving : Giving s.pushed s.claimed (fun j => (s.pc j).carries) s.returned
  reclaim : ∀ n, s.Reclaim n

/-- What holds of the slots and of the blocks, wherever the indices are. -/
structure Core (s : St ι V) : Prop where
  knows : ∀ j, (s.pc j).Knows s.pushed s.slots
  writing : Writing s.pushed (fun j => (s.pc j).writes) s.slots
  reading : Reading s.claimed (fun j => (s.pc j).claims) s.slots
  giving : Giving s.pushed s.claimed (fun j => (s.pc j).carries) s.returned
  reclaim : ∀ n, s.Reclaim n

theorem Inv.core (h : Inv s) : Core s := ⟨h.knows, h.writing, h.reading, h.giving, h.reclaim⟩

theorem Core.inv (h : Core s) (hpositions : Positions s) : Inv s :=
  ⟨hpositions, h.knows, h.writing, h.reading, h.giving, h.reclaim⟩

/-- A queue with no block. -/
theorem core_new : Core (St.new : St ι V) where
  knows _ := trivial
  writing := ⟨held_none, fun k => iff_of_false nofun fun h => absurd h.1 (Nat.not_lt_zero k), nofun⟩
  reading := ⟨held_none, fun k h => absurd h.1 (Nat.not_lt_zero k),
    fun k _ => iff_of_false nofun fun h => absurd h.1 (Nat.not_lt_zero k)⟩
  giving := ⟨held_none, nofun, delivers_nil⟩
  reclaim _ := .waiting (fun h => absurd h.1 (Nat.not_lt_zero _)) (fun _ => rfl) (fun _ => rfl) rfl

variable {k : Nat}

/-- All readers of a freed block are finished. -/
theorem Core.done_of_freed (h : Core s) (hfreed : (s.blocks (k / 31)).freed = true) :
    Done s.claimed (fun j => (s.pc j).claims) k := by
  have hclean := h.reclaim (k / 31)
  rw [St.Reclaim, hfreed] at hclean
  obtain ⟨hlast, hread⟩ := hclean.of_freed
  by_cases hk : k % 31 = 30
  · rwa [show 31 * (k / 31) + 30 = k by omega] at hlast
  · exact (h.reading.read k hk).mp (hread (k % 31) (by omega))

theorem Core.not_freed_of_claims (h : Core s) (hi : (s.pc i).claims = some k) :
    (s.blocks (k / 31)).freed = false := by
  rw [Bool.eq_false_iff]
  exact fun hfreed => (h.done_of_freed hfreed).2 i hi

theorem Core.not_freed_of_writes (h : Core s) (hi : (s.pc i).writes = some k) :
    (s.blocks (k / 31)).freed = false := by
  rw [Bool.eq_false_iff]
  intro hfreed
  have hwritten := h.reading.finished k (h.done_of_freed hfreed)
  exact ((h.writing.written k).mp hwritten).2 i hi

/-- A call that is about to access a block holds one of its slots or is in its `destroy`; only
`_pop` looks at the block after its own. -/
theorem Core.not_freed_of_touches (h : Core s)
    (hfits : ∀ j c, (s.pc j).claim = some c → c.Fits)
    (hpeek : ∀ select c newHead next, s.pc i = .peekNext select c newHead next →
      (s.blocks next).freed = false)
    {b : Nat} (hi : (s.pc i).touches = some b) : (s.blocks b).freed = false := by
  have hblock {c : Claim} (hc : (s.pc i).claim = some c) : c.block = c.k / 31 :=
    (hfits i c hc).block
  cases hpc : s.pc i with
  | storeNext _ c | write _ c | publish c =>
    rw [hpc] at hi
    cases hi
    rw [hblock (by rw [hpc]; rfl)]
    exact h.not_freed_of_writes (i := i) (by rw [hpc]; rfl)
  | waitNext _ c | waitWrite c | value c | mark c =>
    rw [hpc] at hi
    cases hi
    rw [hblock (by rw [hpc]; rfl)]
    exact h.not_freed_of_claims (i := i) (by rw [hpc]; rfl)
  | peekNext select c newHead next =>
    rw [hpc] at hi
    cases hi
    exact hpeek _ _ _ _ hpc
  | destroyLoad b' o k msg | destroyMark b' o k msg =>
    rw [hpc] at hi
    cases hi
    exact (h.reclaim b).not_freed (i := i) (c := o) (by simp [hpc, Pc.cursor, Pc.place])
  | free b' k msg =>
    rw [hpc] at hi
    cases hi
    exact (h.reclaim b).not_freed (i := i) (c := 30) (by simp [hpc, Pc.cursor, Pc.place])
  | _ => rw [hpc] at hi; cases hi

/-- No call is about to access a freed block. -/
theorem Inv.not_freed_of_touches (h : Inv s) {b : Nat} (hi : (s.pc i).touches = some b) :
    (s.blocks b).freed = false := by
  refine h.core.not_freed_of_touches h.positions.claim (fun select c newHead next hpc => ?_) hi
  have hnext : next = c.block + 1 := by
    have := h.positions.tracks i
    rw [hpc] at this
    exact this.2.1
  have hblock : c.block = c.k / 31 := (h.positions.claim i c (by rw [hpc]; rfl)).block
  -- The head is at the end of the block before, so no slot of this block is claimed.
  obtain ⟨hclaimed, hk, -⟩ := h.positions.head.of_edge (i := i) (by rw [hpc]; rfl)
  rw [Bool.eq_false_iff]
  intro hfreed
  rw [hnext, hblock, show c.k / 31 + 1 = (c.k + 1) / 31 by omega] at hfreed
  have := (h.core.done_of_freed hfreed).1
  omega

/-- The value that is read is the message. -/
theorem Core.msg_eq {c : Claim} (h : Core s) (hfits : ∀ j c, (s.pc j).claim = some c → c.Fits)
    (hpc : s.pc i = .value c) :
    (if (s.blocks c.block).freed then none else (s.slots c.k).value) = s.pushed[c.k]? := by
  have hwritten : (s.slots c.k).written = true := by
    have := h.knows i
    rwa [hpc] at this
  have hfreed : (s.blocks c.block).freed = false := by
    rw [(hfits i c (by rw [hpc]; rfl)).block]
    exact h.not_freed_of_claims (i := i) (by rw [hpc]; rfl)
  rw [hfreed]
  exact h.writing.value c.k hwritten

theorem slots_at {b o : Nat} (ho : o < 31) : s.slots (31 * b + o) = (s.blocks b).slot o := by
  rw [St.slots, show (31 * b + o) / 31 = b by omega, show (31 * b + o) % 31 = o by omega]

theorem Core.knows_push (h : Core s) (horder : s.claimed ≤ s.pushed.length) (v : V) (j : ι) :
    (s.pc j).Knows (s.pushed ++ [v]) s.slots :=
  (h.knows j).push (h.writing.held.lt j)
    fun k hk => (h.giving.held.lt j k hk).trans_le horder

variable [DecidableEq ι]

/-- The invariant after a step of agent `i`. -/
theorem Core.ofUpdate {w c k : Option Nat} {p : Option (Nat × Nat)}
    (hpc : t.pc = update s.pc i pc) (hroles : pc.roles = (w, c, k, p))
    (hknows : ∀ j, j ≠ i → (s.pc j).Knows t.pushed t.slots) (hknow : pc.Knows t.pushed t.slots)
    (hwriting : Writing t.pushed (update (fun j => (s.pc j).writes) i w) t.slots)
    (hreading : Reading t.claimed (update (fun j => (s.pc j).claims) i c) t.slots)
    (hgiving : Giving t.pushed t.claimed (update (fun j => (s.pc j).carries) i k)
      t.returned)
    (hreclaim : ∀ n, Cleanup 30
      (Done t.claimed (update (fun j => (s.pc j).claims) i c) (31 * n + 30))
      (update (fun j => (s.pc j).cursor n) i (slotIn n p)) (t.blocks n).reads
      (t.blocks n).destroys (t.blocks n).freed) : Core t := by
  obtain ⟨rfl, rfl, rfl, rfl⟩ := roles_eq hroles
  refine ⟨?_, ?_, ?_, ?_, fun n => ?_⟩
  · rw [hpc]
    exact forall_phase hknows hknow
  · rw [hpc, map_update Pc.writes]
    exact hwriting
  · rw [hpc, map_update Pc.claims]
    exact hreading
  · rw [hpc, map_update Pc.carries]
    exact hgiving
  · rw [St.Reclaim, hpc, map_update Pc.claims, map_update (Pc.cursor n)]
    exact hreclaim n

theorem update_same {β : Type} {f : Pc V → β} {x : β} (h : f (s.pc i) = x) :
    update (fun j => f (s.pc j)) i x = fun j => f (s.pc j) := by
  rw [← h]
  exact update_eq_self i _

theorem update_cursor {p : Option (Nat × Nat)} {n : Nat}
    (h : slotIn n (s.pc i).place = slotIn n p) :
    update (fun j => (s.pc j).cursor n) i (slotIn n p) = fun j => (s.pc j).cursor n :=
  update_same (f := Pc.cursor n) h

/-- The slots and what the call holds stay. -/
theorem Core.still (h : Core s) (hpc : t.pc = update s.pc i pc)
    (hhistory : t.history = s.history) (hslot : ∀ n, (t.blocks n).slot = (s.blocks n).slot)
    (hfreed : ∀ n, (t.blocks n).freed = (s.blocks n).freed) (hroles : pc.roles = (s.pc i).roles)
    (hknows : pc.Knows s.pushed s.slots) : Core t := by
  obtain ⟨hpushed, hclaimed, hreturned⟩ : _ ∧ _ ∧ _ := by
    simpa only [St.history, Prod.mk.injEq] using hhistory
  have hslots : t.slots = s.slots := by
    funext k
    rw [St.slots, hslot]
    rfl
  refine .ofUpdate hpc hroles ?_ ?_ ?_ ?_ ?_ fun n => ?_
  · rw [hpushed, hslots]
    exact fun j _ => h.knows j
  · rwa [hpushed, hslots]
  · rw [hpushed, hslots, update_same rfl]
    exact h.writing
  · rw [hclaimed, hslots, update_same rfl]
    exact h.reading
  · rw [hpushed, hclaimed, hreturned, update_same rfl]
    exact h.giving
  · have hreads : (t.blocks n).reads = (s.blocks n).reads := by
      funext o
      rw [Block.reads, hslot]
      rfl
    have hdestroys : (t.blocks n).destroys = (s.blocks n).destroys := by
      funext o
      rw [Block.destroys, hslot]
      rfl
    rw [hclaimed, update_same rfl, update_cursor rfl, hreads, hdestroys, hfreed]
    exact h.reclaim n

/-- A push claims a slot. -/
theorem Core.cas {v : V} (h : Core s) (horder : s.claimed ≤ s.pushed.length)
    (hpc : t.pc = update s.pc i pc) (hidle : (s.pc i).roles = (none, none, none, none))
    (hblocks : t.blocks = s.blocks)
    (hhistory : t.history = (s.pushed ++ [v], s.claimed, s.returned))
    (hroles : pc.roles = (some s.pushed.length, none, none, none))
    (hknows : pc.Knows (s.pushed ++ [v]) s.slots) : Core t := by
  obtain ⟨hpushed, hclaimed, hreturned⟩ : _ ∧ _ ∧ _ := by
    simpa only [St.history, Prod.mk.injEq] using hhistory
  obtain ⟨hwrites, hclaims, hcarries, hplace⟩ := roles_eq hidle
  have hslots : t.slots = s.slots := by
    funext k
    rw [St.slots, hblocks]
    rfl
  refine .ofUpdate hpc hroles ?_ ?_ ?_ ?_ ?_ fun n => ?_
  · rw [hpushed, hslots]
    exact fun j _ => h.knows_push horder v j
  · rwa [hpushed, hslots]
  · rw [hpushed, hslots]
    exact h.writing.push hwrites
  · rw [hclaimed, hslots, update_same hclaims]
    exact h.reading
  · rw [hpushed, hclaimed, hreturned, update_same hcarries]
    exact h.giving.push
  · rw [hclaimed, hblocks, update_same hclaims, update_cursor (by rw [hplace])]
    exact h.reclaim n

/-- A pop claims a slot. -/
theorem Core.popCas (h : Core s) (hpc : t.pc = update s.pc i pc)
    (hidle : (s.pc i).roles = (none, none, none, none))
    (hblocks : t.blocks = s.blocks)
    (hhistory : t.history = (s.pushed, s.claimed + 1, s.returned))
    (hroles : pc.roles = (none, some s.claimed, some s.claimed, none))
    (hknows : pc.Knows s.pushed s.slots) : Core t := by
  obtain ⟨hpushed, hclaimed, hreturned⟩ : _ ∧ _ ∧ _ := by
    simpa only [St.history, Prod.mk.injEq] using hhistory
  obtain ⟨hwrites, hclaims, hcarries, hplace⟩ := roles_eq hidle
  have hslots : t.slots = s.slots := by
    funext k
    rw [St.slots, hblocks]
    rfl
  refine .ofUpdate hpc hroles ?_ ?_ ?_ ?_ ?_ fun n => ?_
  · rw [hpushed, hslots]
    exact fun j _ => h.knows j
  · rwa [hpushed, hslots]
  · rw [hpushed, hslots, update_same hwrites]
    exact h.writing
  · rw [hclaimed, hslots]
    exact h.reading.take hclaims
  · rw [hpushed, hclaimed, hreturned]
    exact h.giving.take hcarries
  · rw [hclaimed, hblocks, update_cursor (by rw [hplace])]
    exact (h.reclaim n).congr (Iff.symm (done_take hclaims))

/-! ## Steps at a slot -/

section Slot

variable {k : Nat} {slot : Slot V}

theorem reads_of_setSlot (hread : slot.read = (s.slots k).read) (n : Nat) :
    ((s.setSlot k slot i pc).blocks n).reads = (s.blocks n).reads := by
  by_cases hn : n = k / 31
  · subst hn
    simp only [St.setSlot, St.access, update_self, reads_setSlot, hread]
    exact update_eq_self (k % 31) (s.blocks (k / 31)).reads
  · simp only [St.setSlot, St.access, update_of_ne hn]

theorem destroys_of_setSlot (hdestroy : slot.destroy = (s.slots k).destroy) (n : Nat) :
    ((s.setSlot k slot i pc).blocks n).destroys = (s.blocks n).destroys := by
  by_cases hn : n = k / 31
  · subst hn
    simp only [St.setSlot, St.access, update_self, destroys_setSlot, hdestroy]
    exact update_eq_self (k % 31) (s.blocks (k / 31)).destroys
  · simp only [St.setSlot, St.access, update_of_ne hn]

theorem freed_setSlot (n : Nat) :
    ((s.setSlot k slot i pc).blocks n).freed = (s.blocks n).freed := by
  by_cases hn : n = k / 31
  · subst hn
    simp only [St.setSlot, St.access, update_self, Block.setSlot]
  · simp only [St.setSlot, St.access, update_of_ne hn]

variable {c : Claim}

/-- The value is written. -/
theorem Core.write {v : V} (h : Core s) (hpc : s.pc i = .write v c)
    (hvalue : slot.value = some v) (hmarks : slot.marks = (s.slots c.k).marks) :
    Core (s.setSlot c.k slot i (.publish c)) := by
  obtain ⟨hwrites, hclaims, hcarries, hplace⟩ :=
    roles_eq (show (s.pc i).roles = (some c.k, none, none, none) by rw [hpc]; rfl)
  obtain ⟨hwritten, hread, hdestroy⟩ : _ ∧ _ ∧ _ := by
    simpa only [Slot.marks, Prod.mk.injEq] using hmarks
  have hv : s.pushed[c.k]? = some v := by
    have := h.knows i
    rwa [hpc] at this
  refine .ofUpdate rfl
    (show (Pc.publish c : Pc V).roles = (some c.k, none, none, none) from rfl) (fun j hj => ?_)
    ?_ ?_ ?_ ?_ fun n => ?_
  · rw [slots_setSlot]
    exact (h.knows j).setSlot (fun hk => hwritten.trans hk)
      fun hk => absurd (h.writing.held.unique j i c.k hk hwrites) hj
  · show ((s.setSlot c.k slot i (.publish c)).slots c.k).value = s.pushed[c.k]?
    rw [slots_setSlot, update_self, hvalue, hv]
  · rw [slots_setSlot, update_same hwrites]
    exact h.writing.write hwrites hwritten
  · rw [slots_setSlot, update_same hclaims]
    exact h.reading.congr (fun n hn => (field_update Slot.written hwritten n).trans hn)
      (field_update Slot.read hread)
  · rw [update_same hcarries]
    exact h.giving
  · rw [reads_of_setSlot hread, destroys_of_setSlot hdestroy, freed_setSlot, update_same hclaims,
      update_cursor (by rw [hplace])]
    exact h.reclaim n

/-- The slot is marked `WRITE`. -/
theorem Core.publish (h : Core s) (hpc : s.pc i = .publish c)
    (hvalue : slot.value = (s.slots c.k).value)
    (hmarks : slot.marks = (true, (s.slots c.k).read, (s.slots c.k).destroy)) :
    Core (s.setSlot c.k slot i .idle) := by
  obtain ⟨hwrites, hclaims, hcarries, hplace⟩ :=
    roles_eq (show (s.pc i).roles = (some c.k, none, none, none) by rw [hpc]; rfl)
  obtain ⟨hwritten, hread, hdestroy⟩ : _ ∧ _ ∧ _ := by
    simpa only [Slot.marks, Prod.mk.injEq] using hmarks
  have hv : (s.slots c.k).value = s.pushed[c.k]? := by
    have := h.knows i
    rwa [hpc] at this
  refine .ofUpdate rfl (idle_roles (V := V)) (fun j _ => ?_) trivial ?_ ?_ ?_ fun n => ?_
  · rw [slots_setSlot]
    exact (h.knows j).setSlot (fun _ => hwritten) fun _ => hvalue
  · rw [slots_setSlot]
    exact h.writing.publish hwrites (hvalue.trans hv) hwritten
  · rw [slots_setSlot, update_same hclaims]
    refine h.reading.congr (fun n hn => ?_) (field_update Slot.read hread)
    by_cases hnk : n = c.k
    · rw [hnk, update_self, hwritten]
    · rwa [update_of_ne hnk]
  · rw [update_same hcarries]
    exact h.giving
  · rw [reads_of_setSlot hread, destroys_of_setSlot hdestroy, freed_setSlot, update_same hclaims,
      update_cursor (by rw [hplace])]
    exact h.reclaim n

theorem reads_at_setSlot :
    ((s.setSlot k slot i pc).blocks (k / 31)).reads =
      update (s.blocks (k / 31)).reads (k % 31) slot.read := by
  simp only [St.setSlot, St.access, update_self, reads_setSlot]

theorem blocks_setSlot_of_ne {n : Nat} (h : n ≠ k / 31) :
    (s.setSlot k slot i pc).blocks n = s.blocks n := by
  simp only [St.setSlot, St.access, update_of_ne h]

/-- A slot is marked `READ`: the readers of the last slots are not concerned. -/
theorem Core.done_mark (h : Core s) (hclaims : (s.pc i).claims = some k) (hin : k % 31 ≠ 30)
    (n : Nat) :
    Done s.claimed (fun j => (s.pc j).claims) (31 * n + 30) ↔
      Done s.claimed (update (fun j => (s.pc j).claims) i none) (31 * n + 30) := by
  rw [h.reading.held.done_drop hclaims, or_iff_left (by omega)]

variable {msg : Option V}

/-- The last slot of a block is read, and its reader starts to destroy the block. -/
theorem Core.valueLast (h : Core s)
    (hfits : ∀ j c, (s.pc j).claim = some c → c.Fits) (hpc : s.pc i = .value c)
    (hlast : c.k % 31 = 30) (hmsg : msg = s.pushed[c.k]?) :
    Core (s.access c.block (s.blocks c.block) i (destroyPc c.block 0 c.k msg)) := by
  obtain ⟨hwrites, hclaims, hcarries, hplace⟩ :=
    roles_eq (show (s.pc i).roles = (none, some c.k, some c.k, none) by rw [hpc]; rfl)
  have hwritten : (s.slots c.k).written = true := by
    have := h.knows i
    rwa [hpc] at this
  have hfits := hfits i c (by rw [hpc]; rfl)
  refine .ofUpdate rfl (destroyPc_roles (Nat.zero_le 30)) ?_ ?_ ?_ ?_ ?_ fun n => ?_
  · rw [slots_access_self]
    exact fun j _ => h.knows j
  · exact destroyPc_knows hmsg
  · rw [slots_access_self, update_same hwrites]
    exact h.writing
  · rw [slots_access_self]
    exact h.reading.finishLast hclaims hlast hwritten
  · rw [update_same hcarries]
    exact h.giving
  · rw [access_self]
    by_cases hn : c.block = n
    · subst hn
      have hk : 31 * c.block + 30 = c.k := by
        have := hfits.block
        omega
      rw [slotIn_self]
      -- the reader of the last slot begins to destroy
      refine (h.reclaim c.block).begin ?_ ((h.reading.held.done_drop hclaims).mpr (.inr hk))
      rw [hk]
      exact not_done_of_holds hclaims
    · have hk : 31 * n + 30 ≠ c.k := by
        have := hfits.block
        omega
      have hdone := h.reading.held.done_drop hclaims (n := 31 * n + 30)
      rw [or_iff_left hk] at hdone
      rw [update_cursor (by rw [hplace, slotIn_ne hn]; rfl)]
      exact (h.reclaim n).congr hdone.symm

/-- The value is read from another slot. -/
theorem Core.value (h : Core s) (hpc : s.pc i = .value c)
    (hin : c.k % 31 ≠ 30) (hmsg : msg = s.pushed[c.k]?) :
    Core (s.access c.block (s.blocks c.block) i (.mark c msg)) := by
  have hwritten : (s.slots c.k).written = true := by
    have := h.knows i
    rwa [hpc] at this
  exact h.still rfl rfl (fun n => by rw [access_self]) (fun n => by rw [access_self])
    (by rw [hpc]; rfl) ⟨hwritten, hin, hmsg⟩

/-- The slot is marked `READ`, and the call returns. -/
theorem Core.mark (h : Core s) (horder : s.claimed ≤ s.pushed.length) (hpc : s.pc i = .mark c msg)
    (hdestroy : (s.slots c.k).destroy = false) (hvalue : slot.value = (s.slots c.k).value)
    (hmarks : slot.marks = ((s.slots c.k).written, true, false)) :
    Core ((s.setSlot c.k slot i .idle).give i c.k msg) := by
  obtain ⟨hwrites, hclaims, hcarries, hplace⟩ :=
    roles_eq (show (s.pc i).roles = (none, some c.k, some c.k, none) by rw [hpc]; rfl)
  obtain ⟨hwritten, hread, hdestroy'⟩ : _ ∧ _ ∧ _ := by
    simpa only [Slot.marks, Prod.mk.injEq] using hmarks
  obtain ⟨hknown, hin, rfl⟩ : _ ∧ _ ∧ _ := by
    have := h.knows i
    rwa [hpc] at this
  have hslots : ((s.setSlot c.k slot i .idle).give i c.k s.pushed[c.k]?).slots =
      update s.slots c.k slot := by
    rw [slots_give, slots_setSlot]
  refine .ofUpdate give_access (idle_roles (V := V)) (fun j _ => ?_) trivial ?_ ?_
    (h.giving.give hcarries horder) fun n => ?_
  · rw [hslots]
    exact (h.knows j).setSlot hwritten.trans fun _ => hvalue
  · rw [hslots, update_same hwrites]
    exact h.writing.congr (field_update Slot.written hwritten) (field_update Slot.value hvalue)
  · rw [hslots]
    exact h.reading.finish hclaims (hwritten.trans hknown) hread
  · show Cleanup 30 _ _ ((s.setSlot c.k slot i .idle).blocks n).reads
      ((s.setSlot c.k slot i .idle).blocks n).destroys ((s.setSlot c.k slot i .idle).blocks n).freed
    rw [destroys_of_setSlot (hdestroy'.trans hdestroy.symm), freed_setSlot,
      update_cursor (by rw [hplace])]
    refine Cleanup.congr ?_ (h.done_mark hclaims hin n)
    by_cases hn : n = c.k / 31
    · subst hn
      rw [reads_at_setSlot, hread]
      exact (h.reclaim _).mark hdestroy
    · rw [blocks_setSlot_of_ne hn]
      exact h.reclaim n

/-- The slot is marked `READ`, and its reader goes on to destroy the block. -/
theorem Core.resume (h : Core s)
    (hfits : ∀ j c, (s.pc j).claim = some c → c.Fits) (hpc : s.pc i = .mark c msg)
    (hdestroy : (s.slots c.k).destroy = true) (hvalue : slot.value = (s.slots c.k).value)
    (hmarks : slot.marks = ((s.slots c.k).written, true, true)) :
    Core (s.setSlot c.k slot i (destroyPc c.block (c.offset + 1) c.k msg)) := by
  obtain ⟨hwrites, hclaims, hcarries, hplace⟩ :=
    roles_eq (show (s.pc i).roles = (none, some c.k, some c.k, none) by rw [hpc]; rfl)
  obtain ⟨hwritten, hread, hdestroy'⟩ : _ ∧ _ ∧ _ := by
    simpa only [Slot.marks, Prod.mk.injEq] using hmarks
  obtain ⟨hknown, hin, hmsg⟩ : _ ∧ _ ∧ _ := by
    have := h.knows i
    rwa [hpc] at this
  have hfits := hfits i c (by rw [hpc]; rfl)
  have hoffset : c.offset + 1 ≤ 30 := by
    rw [hfits.offset]
    omega
  refine .ofUpdate rfl (destroyPc_roles hoffset) (fun j _ => ?_) (destroyPc_knows hmsg)
    ?_ ?_ ?_ fun n => ?_
  · rw [slots_setSlot]
    exact (h.knows j).setSlot hwritten.trans fun _ => hvalue
  · rw [slots_setSlot, update_same hwrites]
    exact h.writing.congr (field_update Slot.written hwritten) (field_update Slot.value hvalue)
  · rw [slots_setSlot]
    exact h.reading.finish hclaims (hwritten.trans hknown) hread
  · rw [update_same hcarries]
    exact h.giving
  · rw [destroys_of_setSlot (hdestroy'.trans hdestroy.symm), freed_setSlot]
    refine Cleanup.congr ?_ (h.done_mark hclaims hin n)
    by_cases hn : n = c.k / 31
    · subst hn
      rw [reads_at_setSlot, hread, hfits.block, slotIn_self, hfits.offset]
      -- `destroy` had stopped at this slot; its reader goes on from there
      exact (h.reclaim _).resume hdestroy (h.reading.not_read hclaims hin) (by omega)
    · rw [blocks_setSlot_of_ne hn,
        update_cursor (by rw [hplace, hfits.block, slotIn_ne (Ne.symm hn)]; rfl)]
      exact h.reclaim n

end Slot

/-! ## Steps of a `destroy` -/

section Destroy

variable {b o k : Nat} {msg : Option V}

/-- `destroy` goes on from a slot that is marked `READ`. -/
theorem Core.pass (h : Core s) (hpc : s.pc i = .destroyLoad b o k msg)
    (hread : ((s.blocks b).slot o).read = true) :
    Core (s.access b (s.blocks b) i (destroyPc b (o + 1) k msg)) := by
  obtain ⟨hwrites, hclaims, hcarries, hplace⟩ :=
    roles_eq (show (s.pc i).roles = (none, none, some k, some (b, o)) by rw [hpc]; rfl)
  obtain ⟨ho, hmsg⟩ : _ ∧ _ := by
    have := h.knows i
    rwa [hpc] at this
  refine .ofUpdate rfl (destroyPc_roles ho) ?_ (destroyPc_knows hmsg) ?_ ?_ ?_
    fun n => ?_
  · rw [slots_access_self]
    exact fun j _ => h.knows j
  · rw [slots_access_self, update_same hwrites]
    exact h.writing
  · rw [slots_access_self, update_same hclaims]
    exact h.reading
  · rw [update_same hcarries]
    exact h.giving
  · rw [access_self, update_same hclaims]
    by_cases hn : b = n
    · subst hn
      rw [slotIn_self]
      exact (h.reclaim b).next (by rw [Pc.cursor, hplace, slotIn_self]) ho hread fun _ _ => rfl
    · rw [update_cursor (by rw [hplace, slotIn_ne hn, slotIn_ne hn])]
      exact h.reclaim n

theorem access_slot (ho : o < 31) (slot : Slot V) :
    s.access b ((s.blocks b).setSlot o slot) i pc = s.setSlot (31 * b + o) slot i pc := by
  rw [St.setSlot, show (31 * b + o) / 31 = b by omega, show (31 * b + o) % 31 = o by omega]

/-- `destroy` marks a slot that is marked `READ` in the meantime, and goes on. -/
theorem Core.passMark {slot : Slot V} (h : Core s) (hpc : s.pc i = .destroyMark b o k msg)
    (hread : ((s.blocks b).slot o).read = true)
    (hvalue : slot.value = ((s.blocks b).slot o).value)
    (hmarks : slot.marks = (((s.blocks b).slot o).written, true, true)) :
    Core (s.access b ((s.blocks b).setSlot o slot) i (destroyPc b (o + 1) k msg)) := by
  obtain ⟨hwrites, hclaims, hcarries, hplace⟩ :=
    roles_eq (show (s.pc i).roles = (none, none, some k, some (b, o)) by rw [hpc]; rfl)
  obtain ⟨hwritten, hread', -⟩ : _ ∧ _ ∧ _ := by
    simpa only [Slot.marks, Prod.mk.injEq] using hmarks
  obtain ⟨ho, hmsg⟩ : _ ∧ _ := by
    have := h.knows i
    rwa [hpc] at this
  have hlt : o < 31 := by omega
  rw [access_slot hlt]
  rw [← slots_at hlt] at hvalue hwritten hread
  refine .ofUpdate rfl (destroyPc_roles ho) (fun j _ => ?_) (destroyPc_knows hmsg) ?_ ?_
    ?_ fun n => ?_
  · rw [slots_setSlot]
    exact (h.knows j).setSlot hwritten.trans fun _ => hvalue
  · rw [slots_setSlot, update_same hwrites]
    exact h.writing.congr (field_update Slot.written hwritten) (field_update Slot.value hvalue)
  · rw [slots_setSlot, update_same hclaims]
    exact h.reading.congr (fun n hn => (field_update Slot.written hwritten n).trans hn)
      (field_update Slot.read (hread'.trans hread.symm))
  · rw [update_same hcarries]
    exact h.giving
  · rw [reads_of_setSlot (hread'.trans hread.symm), freed_setSlot, update_same hclaims]
    by_cases hn : b = n
    · subst hn
      rw [slotIn_self]
      refine (h.reclaim b).next (by rw [Pc.cursor, hplace, slotIn_self]) ho
        (by rwa [slots_at hlt] at hread) fun o' ho' => ?_
      rw [← access_slot hlt]
      simp only [St.access, update_self, destroys_setSlot, update_of_ne ho']
    · rw [blocks_setSlot_of_ne (by omega),
        update_cursor (by rw [hplace, slotIn_ne hn, slotIn_ne hn])]
      exact h.reclaim n

/-- `destroy` marks a slot that is not read, and the call returns. -/
theorem Core.leave {slot : Slot V} (h : Core s) (horder : s.claimed ≤ s.pushed.length)
    (hpc : s.pc i = .destroyMark b o k msg)
    (hread : ((s.blocks b).slot o).read = false)
    (hvalue : slot.value = ((s.blocks b).slot o).value)
    (hmarks : slot.marks = (((s.blocks b).slot o).written, false, true)) :
    Core ((s.access b ((s.blocks b).setSlot o slot) i .idle).give i k msg) := by
  obtain ⟨hwrites, hclaims, hcarries, hplace⟩ :=
    roles_eq (show (s.pc i).roles = (none, none, some k, some (b, o)) by rw [hpc]; rfl)
  obtain ⟨hwritten, hread', hdestroy⟩ : _ ∧ _ ∧ _ := by
    simpa only [Slot.marks, Prod.mk.injEq] using hmarks
  obtain ⟨ho, rfl⟩ : _ ∧ _ := by
    have := h.knows i
    rwa [hpc] at this
  have hlt : o < 31 := by omega
  rw [access_slot hlt]
  rw [← slots_at hlt] at hvalue hwritten hread
  have hslots : ((s.setSlot (31 * b + o) slot i .idle).give i k s.pushed[k]?).slots =
      update s.slots (31 * b + o) slot := by
    rw [slots_give, slots_setSlot]
  refine .ofUpdate give_access (idle_roles (V := V)) (fun j _ => ?_) trivial ?_ ?_
    (h.giving.give hcarries horder) fun n => ?_
  · rw [hslots]
    exact (h.knows j).setSlot hwritten.trans fun _ => hvalue
  · rw [hslots, update_same hwrites]
    exact h.writing.congr (field_update Slot.written hwritten) (field_update Slot.value hvalue)
  · rw [hslots, update_same hclaims]
    exact h.reading.congr (fun n hn => (field_update Slot.written hwritten n).trans hn)
      (field_update Slot.read (hread'.trans hread.symm))
  · show Cleanup 30 _ _ ((s.setSlot (31 * b + o) slot i .idle).blocks n).reads
      ((s.setSlot (31 * b + o) slot i .idle).blocks n).destroys
      ((s.setSlot (31 * b + o) slot i .idle).blocks n).freed
    rw [reads_of_setSlot (hread'.trans hread.symm), freed_setSlot, update_same hclaims]
    by_cases hn : b = n
    · subst hn
      rw [← access_slot hlt]
      simp only [St.access, update_self, destroys_setSlot, hdestroy]
      -- the reader of this slot will find the mark and go on
      exact (h.reclaim b).leave (by rw [Pc.cursor, hplace, slotIn_self]) ho
        (by rwa [slots_at hlt] at hread)
    · rw [blocks_setSlot_of_ne (by omega), update_cursor (by rw [hplace, slotIn_ne hn]; rfl)]
      exact h.reclaim n

/-- The block is freed, and the call returns. -/
theorem Core.free {block : Block V} (h : Core s) (horder : s.claimed ≤ s.pushed.length)
    (hpc : s.pc i = .free b k msg)
    (hslot : block.slot = (s.blocks b).slot) (hfreed : block.freed = true) :
    Core ((s.access b block i .idle).give i k msg) := by
  obtain ⟨hwrites, hclaims, hcarries, hplace⟩ :=
    roles_eq (show (s.pc i).roles = (none, none, some k, some (b, 30)) by rw [hpc]; rfl)
  obtain rfl : msg = s.pushed[k]? := by
    have := h.knows i
    rwa [hpc] at this
  -- freeing leaves the slots as they were
  have hblock (n : Nat) : (update s.blocks b block n).slot = (s.blocks n).slot := by
    by_cases hn : n = b
    · rw [hn, update_self, hslot]
    · rw [update_of_ne hn]
  have hslots : ((s.access b block i .idle).give i k s.pushed[k]?).slots = s.slots := by
    funext n
    show (update s.blocks b block (n / 31)).slot (n % 31) = _
    rw [hblock]
    rfl
  refine .ofUpdate give_access (idle_roles (V := V)) (fun j _ => ?_) trivial ?_ ?_
    (h.giving.give hcarries horder) fun n => ?_
  · rw [hslots]
    exact h.knows j
  · rw [hslots, update_same hwrites]
    exact h.writing
  · rw [hslots, update_same hclaims]
    exact h.reading
  · rw [update_same hclaims]
    show Cleanup 30 _ _ (update s.blocks b block n).reads
      (update s.blocks b block n).destroys (update s.blocks b block n).freed
    by_cases hn : b = n
    · subst hn
      have hreads : block.reads = (s.blocks b).reads := by
        funext o
        rw [Block.reads, hslot]
        rfl
      have hdestroys : block.destroys = (s.blocks b).destroys := by
        funext o
        rw [Block.destroys, hslot]
        rfl
      rw [update_self, hreads, hdestroys, hfreed]
      exact (h.reclaim b).free (by rw [Pc.cursor, hplace, slotIn_self])
    · rw [update_of_ne (Ne.symm hn), update_cursor (by rw [hplace, slotIn_ne hn]; rfl)]
      exact h.reclaim n

end Destroy

/-! ## Every run -/

/-- **Every move keeps the invariant.** -/
theorem Core.move (h : Core s) (hfits : ∀ j c, (s.pc j).claim = some c → c.Fits)
    (horder : s.claimed ≤ s.pushed.length) (hmove : Move s i t) : Core t := by
  cases hmove with
  | still t pc hpc hhistory hslot hfreed hroles hknows _ =>
    exact h.still hpc hhistory hslot hfreed hroles (hknows (h.knows i))
  | cas t v pc hpc hidle hblocks hhistory hroles hknows _ =>
    exact h.cas horder hpc hidle hblocks hhistory hroles hknows
  | write v c slot hpc hvalue hmarks => exact h.write hpc hvalue hmarks
  | publish c slot hpc hvalue hmarks => exact h.publish hpc hvalue hmarks
  | popCas t pc hpc hidle hblocks hhistory hroles hknows _ =>
    exact h.popCas hpc hidle hblocks hhistory hroles hknows
  | value c hpc hin => exact h.value hpc hin (h.msg_eq hfits hpc)
  | valueLast c hpc hlast => exact h.valueLast hfits hpc hlast (h.msg_eq hfits hpc)
  | mark c msg slot hpc hdestroy hvalue hmarks =>
    exact h.mark horder hpc hdestroy hvalue hmarks
  | resume c msg slot hpc hdestroy hvalue hmarks =>
    exact h.resume hfits hpc hdestroy hvalue hmarks
  | pass b o k msg hpc hread => exact h.pass hpc hread
  | passMark b o k msg slot hpc hread hvalue hmarks =>
    exact h.passMark hpc hread hvalue hmarks
  | leave b o k msg slot hpc hread hvalue hmarks =>
    exact h.leave horder hpc hread hvalue hmarks
  | free b k msg hpc => exact h.free horder hpc rfl rfl

theorem inv_of_step {a : Act ι V} (h : Inv s) (hok : indexOk s a) (hst : step s a = some t) :
    Inv t := by
  obtain ⟨i, hmove⟩ := move_of_step h.positions.claim hst
  exact (h.core.move h.positions.claim h.positions.order hmove).inv (h.positions.step hok hst)

theorem inv_of_reach (h : Reach system indexOk s) : Inv s := by
  refine h.invariant (fun s hs => ?_) fun s a t hinv hok hst => inv_of_step hinv hok hst
  cases hs
  exact core_new.inv positions_new

/-- Every message is returned at most once, and as it was pushed. -/
theorem delivers_of_reach (h : Reach system indexOk s) : Delivers s.pushed s.returned :=
  (inv_of_reach h).giving.delivers

/-- No call accesses a freed block, and no block is freed twice. -/
theorem not_misused_of_reach (h : Reach system indexOk s) : s.misused = false := by
  have hboth : Inv s ∧ s.misused = false := by
    refine h.invariant (P := fun s => Inv s ∧ s.misused = false) (fun s hs => ?_)
      fun s a t hinv hok hst => ?_
    · cases hs
      exact ⟨core_new.inv positions_new, rfl⟩
    · refine ⟨inv_of_step hinv.1 hok hst, ?_⟩
      obtain ⟨i, hmove⟩ := move_of_step hinv.1.positions.claim hst
      rcases hmove.misused_eq hinv.1.positions.claim with hsame | ⟨b, htouches, hor⟩
      · rw [hsame, hinv.2]
      · rw [hor, hinv.2, hinv.1.not_freed_of_touches htouches]
        rfl
  exact hboth.2

end Invariant

end Crossfire.SegQueue
