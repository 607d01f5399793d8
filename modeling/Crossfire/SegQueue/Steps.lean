import Crossfire.SegQueue.Positions

/-!
# What a step of a `SegQueue` does to the slots

The slot of message `k` is `St.slots s k`. `Pc.roles` is what a call holds: the message it is
writing, the message it has claimed and not finished reading, the message it is going to return, and
the slot at which it is in `destroy`. `Move` lists what a step does to the slots, to the history and
to the roles; most steps only load or store a word (`still`).
-/

set_option autoImplicit false

namespace Crossfire.SegQueue

open Lib.Interleaving Function

/-! ## Roles -/

section Roles

variable {V : Type}

/-- The message that a push has claimed a slot for and not published. -/
def Pc.writes : Pc V → Option Nat
  | .storeBlock _ c _ _ | .storeIndex _ c _ _ | .storeNext _ c _ | .write _ c | .publish c =>
    some c.k
  | _ => none

/-- The message that a pop has claimed and whose slot it has not finished with. -/
def Pc.claims : Pc V → Option Nat
  | .waitNext _ c _ | .peekNext _ c _ _ | .storeHeadBlock _ c _ _ | .storeHeadIndex _ c _
  | .token c | .waitWrite c | .value c | .mark c _ => some c.k
  | _ => none

/-- The message that a call is going to return. -/
def Pc.carries : Pc V → Option Nat
  | .waitNext _ c _ | .peekNext _ c _ _ | .storeHeadBlock _ c _ _ | .storeHeadIndex _ c _
  | .token c | .waitWrite c | .value c | .mark c _ => some c.k
  | .destroyLoad _ _ k _ | .destroyMark _ _ k _ | .free _ k _ => some k
  | _ => none

/-- The block and the slot that a `destroy` is about to look at; it frees the block after slot
29. -/
def Pc.place : Pc V → Option (Nat × Nat)
  | .destroyLoad b o _ _ | .destroyMark b o _ _ => some (b, o)
  | .free b _ _ => some (b, 30)
  | _ => none

/-- The slot of block `n` at a place. -/
def slotIn (n : Nat) : Option (Nat × Nat) → Option Nat
  | some (b, o) => if b = n then some o else none
  | none => none

@[simp] theorem slotIn_self (n o : Nat) : slotIn n (some (n, o)) = some o := if_pos rfl

theorem slotIn_ne {n b : Nat} (h : b ≠ n) (o : Nat) : slotIn n (some (b, o)) = none := if_neg h

/-- The slot of block `n` that a `destroy` is about to look at. -/
def Pc.cursor (n : Nat) (pc : Pc V) : Option Nat := slotIn n pc.place

/-- Everything that a call holds. -/
def Pc.roles (pc : Pc V) : Option Nat × Option Nat × Option Nat × Option (Nat × Nat) :=
  (pc.writes, pc.claims, pc.carries, pc.place)

theorem roles_eq {pc : Pc V} {w c k : Option Nat} {p : Option (Nat × Nat)}
    (h : pc.roles = (w, c, k, p)) :
    pc.writes = w ∧ pc.claims = c ∧ pc.carries = k ∧ pc.place = p := by
  simpa only [Pc.roles, Prod.mk.injEq] using h

/-- The block that a call is about to access. -/
def Pc.touches : Pc V → Option Nat
  | .storeNext _ c _ | .write _ c | .publish c | .waitNext _ c _ | .waitWrite c | .value c
  | .mark c _ => some c.block
  | .peekNext _ _ _ next => some next
  | .destroyLoad b _ _ _ | .destroyMark b _ _ _ | .free b _ _ => some b
  | _ => none

/-- What a call knows about its message. -/
def Pc.Knows (pushed : List V) (slots : Nat → Slot V) : Pc V → Prop
  | .storeBlock v c _ _ | .storeIndex v c _ _ | .storeNext v c _ | .write v c =>
    pushed[c.k]? = some v
  | .publish c => (slots c.k).value = pushed[c.k]?
  | .value c => (slots c.k).written = true
  | .mark c msg => (slots c.k).written = true ∧ c.k % 31 ≠ 30 ∧ msg = pushed[c.k]?
  | .destroyLoad _ o k msg | .destroyMark _ o k msg => o < 30 ∧ msg = pushed[k]?
  | .free _ k msg => msg = pushed[k]?
  | _ => True

end Roles

section Moves

variable {ι V : Type} {s t : St ι V} {i : ι} {pc : Pc V}

/-- The bits `WRITE`, `READ` and `DESTROY`. -/
def Slot.marks (slot : Slot V) : Bool × Bool × Bool := (slot.written, slot.read, slot.destroy)

/-- The slot of message `k`. -/
def St.slots (s : St ι V) (k : Nat) : Slot V := (s.blocks (k / 31)).slot (k % 31)

/-- What was pushed, claimed and returned. -/
def St.history (s : St ι V) : List V × Nat × List (Nat × Option V) :=
  (s.pushed, s.claimed, s.returned)

theorem slots_of_fits {c : Claim} (h : c.Fits) :
    (s.blocks c.block).slot c.offset = s.slots c.k := by
  rw [h.block, h.offset]
  rfl

theorem Loads.roles {p q : Pc V} (h : Loads s p q) :
    q.roles = p.roles ∧ ∀ pushed slots, q.Knows pushed slots := by
  cases h <;> exact ⟨rfl, fun _ _ => trivial⟩

variable [DecidableEq ι]

/-- Access to the slot of message `k`. -/
def St.setSlot (s : St ι V) (k : Nat) (slot : Slot V) (i : ι) (pc : Pc V) : St ι V :=
  s.access (k / 31) ((s.blocks (k / 31)).setSlot (k % 31) slot) i pc

/-- A slot is that of its message. -/
theorem slots_setSlot (k : Nat) (slot : Slot V) :
    (s.setSlot k slot i pc).slots = update s.slots k slot := by
  funext n
  by_cases hn : n = k
  · subst hn
    simp only [St.slots, St.setSlot, St.access, Block.setSlot, update_self]
  · rw [update_of_ne hn]
    by_cases hb : n / 31 = k / 31
    · have ho : n % 31 ≠ k % 31 := by omega
      simp only [St.slots, St.setSlot, St.access, Block.setSlot, hb, update_self,
        update_of_ne ho]
    · simp only [St.slots, St.setSlot, St.access, update_of_ne hb]

theorem slots_give (k : Nat) (msg : Option V) : (s.give i k msg).slots = s.slots := rfl

/-- What a step of agent `i` does to the slots and the history. -/
inductive Move (s : St ι V) (i : ι) : St ι V → Prop
  /-- The slots and what the call holds stay. -/
  | still (t : St ι V) (pc : Pc V) (hpc : t.pc = update s.pc i pc)
      (hhistory : t.history = s.history) (hslot : ∀ n, (t.blocks n).slot = (s.blocks n).slot)
      (hfreed : ∀ n, (t.blocks n).freed = (s.blocks n).freed) (hroles : pc.roles = (s.pc i).roles)
      (hknows : (s.pc i).Knows s.pushed s.slots → pc.Knows s.pushed s.slots)
      (hmisused : t.misused = s.misused ∨
        ∃ b, (s.pc i).touches = some b ∧ t.misused = (s.misused || (s.blocks b).freed)) : Move s i t
  | cas (t : St ι V) (v : V) (pc : Pc V) (hpc : t.pc = update s.pc i pc)
      (hidle : (s.pc i).roles = (none, none, none, none)) (hblocks : t.blocks = s.blocks)
      (hhistory : t.history = (s.pushed ++ [v], s.claimed, s.returned))
      (hroles : pc.roles = (some s.pushed.length, none, none, none))
      (hknows : pc.Knows (s.pushed ++ [v]) s.slots)
      (hmisused : t.misused = s.misused) : Move s i t
  | write (v : V) (c : Claim) (slot : Slot V) (hpc : s.pc i = .write v c)
      (hvalue : slot.value = some v)
      (hsame : slot.marks = (s.slots c.k).marks) : Move s i (s.setSlot c.k slot i (.publish c))
  | publish (c : Claim) (slot : Slot V) (hpc : s.pc i = .publish c)
      (hvalue : slot.value = (s.slots c.k).value)
      (hmarks : slot.marks = (true, (s.slots c.k).read, (s.slots c.k).destroy)) :
      Move s i (s.setSlot c.k slot i .idle)
  | popCas (t : St ι V) (pc : Pc V) (hpc : t.pc = update s.pc i pc)
      (hidle : (s.pc i).roles = (none, none, none, none)) (hblocks : t.blocks = s.blocks)
      (hhistory : t.history = (s.pushed, s.claimed + 1, s.returned))
      (hroles : pc.roles = (none, some s.claimed, some s.claimed, none))
      (hknows : pc.Knows s.pushed s.slots)
      (hmisused : t.misused = s.misused) : Move s i t
  | value (c : Claim) (hpc : s.pc i = .value c) (hin : c.k % 31 ≠ 30) :
      Move s i (s.access c.block (s.blocks c.block) i
        (.mark c (if (s.blocks c.block).freed then none else (s.slots c.k).value)))
  | valueLast (c : Claim) (hpc : s.pc i = .value c) (hin : c.k % 31 = 30) :
      Move s i (s.access c.block (s.blocks c.block) i (destroyPc c.block 0 c.k
        (if (s.blocks c.block).freed then none else (s.slots c.k).value)))
  | mark (c : Claim) (msg : Option V) (slot : Slot V) (hpc : s.pc i = .mark c msg)
      (hdestroy : (s.slots c.k).destroy = false) (hvalue : slot.value = (s.slots c.k).value)
      (hmarks : slot.marks = ((s.slots c.k).written, true, false)) :
      Move s i ((s.setSlot c.k slot i .idle).give i c.k msg)
  | resume (c : Claim) (msg : Option V) (slot : Slot V) (hpc : s.pc i = .mark c msg)
      (hdestroy : (s.slots c.k).destroy = true) (hvalue : slot.value = (s.slots c.k).value)
      (hmarks : slot.marks = ((s.slots c.k).written, true, true)) :
      Move s i (s.setSlot c.k slot i (destroyPc c.block (c.offset + 1) c.k msg))
  | pass (b o k : Nat) (msg : Option V) (hpc : s.pc i = .destroyLoad b o k msg)
      (hread : ((s.blocks b).slot o).read = true) :
      Move s i (s.access b (s.blocks b) i (destroyPc b (o + 1) k msg))
  | passMark (b o k : Nat) (msg : Option V) (slot : Slot V) (hpc : s.pc i = .destroyMark b o k msg)
      (hread : ((s.blocks b).slot o).read = true)
      (hvalue : slot.value = ((s.blocks b).slot o).value)
      (hmarks : slot.marks = (((s.blocks b).slot o).written, true, true)) :
      Move s i (s.access b ((s.blocks b).setSlot o slot) i (destroyPc b (o + 1) k msg))
  | leave (b o k : Nat) (msg : Option V) (slot : Slot V) (hpc : s.pc i = .destroyMark b o k msg)
      (hread : ((s.blocks b).slot o).read = false)
      (hvalue : slot.value = ((s.blocks b).slot o).value)
      (hmarks : slot.marks = (((s.blocks b).slot o).written, false, true)) :
      Move s i ((s.access b ((s.blocks b).setSlot o slot) i .idle).give i k msg)
  | free (b k : Nat) (msg : Option V) (hpc : s.pc i = .free b k msg) :
      Move s i ((s.access b { s.blocks b with freed := true } i .idle).give i k msg)

/-! ## Every step is a move -/

theorem access_fits {c : Claim} (h : c.Fits) (slot : Slot V) :
    s.access c.block ((s.blocks c.block).setSlot c.offset slot) i pc = s.setSlot c.k slot i pc := by
  rw [St.setSlot, h.block, h.offset]

theorem access_self (b : Nat) : (s.access b (s.blocks b) i pc).blocks = s.blocks :=
  update_eq_self b s.blocks

theorem slots_access_self (b : Nat) : (s.access b (s.blocks b) i pc).slots = s.slots := by
  funext k
  rw [St.slots, access_self]
  rfl

/-- A step that changes at most the words of the queue. -/
theorem Move.word (hpc : t.pc = update s.pc i pc) (hhistory : t.history = s.history)
    (hblocks : t.blocks = s.blocks) (hroles : pc.roles = (s.pc i).roles)
    (hmisused : t.misused = s.misused)
    (hknows : (s.pc i).Knows s.pushed s.slots → pc.Knows s.pushed s.slots) : Move s i t :=
  .still t pc hpc hhistory (fun n => by rw [hblocks]) (fun n => by rw [hblocks]) hroles hknows
    (.inl hmisused)

/-- A step that changes at most a `next` pointer. -/
theorem Move.access {b : Nat} {block : Block V} (hslot : block.slot = (s.blocks b).slot)
    (hfreed : block.freed = (s.blocks b).freed) (hroles : pc.roles = (s.pc i).roles)
    (htouches : (s.pc i).touches = some b)
    (hknows : (s.pc i).Knows s.pushed s.slots → pc.Knows s.pushed s.slots) :
    Move s i (s.access b block i pc) := by
  refine .still _ pc rfl rfl (fun n => ?_) (fun n => ?_) hroles hknows (.inr ⟨b, htouches, rfl⟩)
  all_goals
    by_cases hn : n = b
    · subst hn
      simpa only [St.access, update_self]
    · simp only [St.access, update_of_ne hn]

/-- A look at a block. -/
theorem move_of_looks {b : Nat} (hfits : ∀ j c, (s.pc j).claim = some c → c.Fits)
    (h : Looks s (s.pc i) b pc) : Move s i (s.access b (s.blocks b) i pc) := by
  generalize hpc : s.pc i = p at h
  have hfits {c : Claim} (hc : p.claim = some c) : c.Fits := hfits i c (hpc ▸ hc)
  cases h with
  | noNext | unwritten =>
    exact .access rfl rfl (by rw [hpc]) (by rw [hpc]; rfl) fun _ => trivial
  | waitNext | peekNext =>
    exact .access rfl rfl (by rw [hpc]; rfl) (by rw [hpc]; rfl) fun _ => trivial
  | waitWrite c hwritten =>
    rw [slots_of_fits (hfits rfl)] at hwritten
    exact .access rfl rfl (by rw [hpc]; rfl) (by rw [hpc]; rfl) fun _ => hwritten
  | value c hin =>
    rw [slots_of_fits (hfits rfl)]
    exact .value c hpc ((hfits rfl).offset ▸ hin)
  | valueLast c hlast =>
    rw [slots_of_fits (hfits rfl)]
    exact .valueLast c hpc ((hfits rfl).offset ▸ hlast)
  | pass _ o k msg hread => exact .pass b o k msg hpc hread
  | unread =>
    exact .access rfl rfl (by rw [hpc]; rfl) (by rw [hpc]; rfl) fun hk => by rwa [hpc] at hk

/-- **A step of a call is a move.** -/
theorem move_of_goes (hfits : ∀ j c, (s.pc j).claim = some c → c.Fits) (h : Goes s i t) :
    Move s i t := by
  cases h with
  | loads pc hloads => exact .word rfl rfl rfl hloads.roles.1 rfl fun _ => hloads.roles.2 _ _
  | looks b pc hlooks => exact move_of_looks hfits hlooks
  | casFirst _ _ hpc | storeFirst _ _ _ hpc | storeHeadBlock _ _ _ _ hpc =>
    exact .word rfl rfl rfl (by rw [hpc]; rfl) rfl fun _ => trivial
  | cas v _ _ hpc | casLast v _ _ hpc =>
    exact .cas _ v _ rfl (by rw [hpc]; rfl) rfl rfl rfl List.getElem?_concat_length rfl
  | storeBlock _ _ _ _ hpc | storeIndex _ _ _ _ hpc =>
    exact .word rfl rfl rfl (by rw [hpc]; rfl) rfl fun hk => by rwa [hpc] at hk
  | storeNext _ _ _ hpc =>
    exact .access rfl rfl (by rw [hpc]; rfl) (by rw [hpc]; rfl) fun hk => by rwa [hpc] at hk
  | write v c hpc =>
    have hfits := hfits i c (by rw [hpc]; rfl)
    rw [slots_of_fits hfits, access_fits hfits]
    exact .write v c _ hpc rfl rfl
  | publish c hpc =>
    have hfits := hfits i c (by rw [hpc]; rfl)
    rw [slots_of_fits hfits, access_fits hfits]
    exact .publish c _ hpc rfl rfl
  | popCas select _ _ _ hpc =>
    split
    · exact .popCas _ _ rfl (by rw [hpc]; rfl) rfl rfl rfl trivial rfl
    · cases select <;> exact .popCas _ _ rfl (by rw [hpc]; rfl) rfl rfl rfl trivial rfl
  | storeHeadIndex select _ _ hpc =>
    cases select <;> exact .word rfl rfl rfl (by rw [hpc]; rfl) rfl fun _ => trivial
  | resume c msg hpc hdestroy =>
    have hfits := hfits i c (by rw [hpc]; rfl)
    rw [slots_of_fits hfits] at hdestroy ⊢
    rw [access_fits hfits]
    exact .resume c msg _ hpc hdestroy rfl (by rw [Slot.marks, hdestroy])
  | mark c msg hpc hdestroy =>
    have hfits := hfits i c (by rw [hpc]; rfl)
    rw [slots_of_fits hfits] at hdestroy ⊢
    rw [access_fits hfits]
    exact .mark c msg _ hpc hdestroy rfl (by rw [Slot.marks, hdestroy])
  | passMark b o k msg hpc hread =>
    exact .passMark b o k msg _ hpc hread rfl (by rw [Slot.marks, hread])
  | leave b o k msg hpc hread =>
    exact .leave b o k msg _ hpc hread rfl (by rw [Slot.marks, hread])
  | free b k msg hpc => exact .free b k msg hpc

/-- An access to a freed block is recorded. -/
theorem Move.misused_eq (hfits : ∀ j c, (s.pc j).claim = some c → c.Fits) (h : Move s i t) :
    t.misused = s.misused ∨
      ∃ b, (s.pc i).touches = some b ∧ t.misused = (s.misused || (s.blocks b).freed) := by
  have hat {c : Claim} (hclaim : (s.pc i).claim = some c) : c.k / 31 = c.block :=
    (hfits i c hclaim).block.symm
  cases h with
  | still _ _ _ _ _ _ _ _ hmisused => exact hmisused
  | cas _ _ _ _ _ _ _ _ _ hmisused | popCas _ _ _ _ _ _ _ _ hmisused => exact .inl hmisused
  | write _ c _ hpc | publish c _ hpc | mark c _ _ hpc | resume c _ _ hpc =>
    refine .inr ⟨c.k / 31, ?_, rfl⟩
    rw [hat (by rw [hpc]; rfl), hpc]
    rfl
  | value c hpc | valueLast c hpc => exact .inr ⟨c.block, by rw [hpc]; rfl, rfl⟩
  | pass b _ _ _ hpc | passMark b _ _ _ _ hpc | leave b _ _ _ _ hpc | free b _ _ hpc =>
    exact .inr ⟨b, by rw [hpc]; rfl, rfl⟩

/-- **Every action is one of `Move`.** -/
theorem move_of_step {a : Act ι V} (hfits : ∀ j c, (s.pc j).claim = some c → c.Fits)
    (hst : step s a = some t) : ∃ i, Move s i t := by
  rcases step_cases hst with ⟨pc, hidle, hstarts, rfl⟩ | hgoes
  · refine ⟨a.agent, ?_⟩
    cases pc with
    | loadTail | emptyHead | finalHead | loadHead =>
      exact .word rfl rfl rfl (by rw [hidle]; rfl) rfl fun _ => trivial
    | _ => cases hstarts
  · exact ⟨a.agent, move_of_goes hfits hgoes⟩

end Moves

end Crossfire.SegQueue
