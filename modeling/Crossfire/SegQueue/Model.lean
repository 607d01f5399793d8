import Crossfire.Lib.Interleaving

/-!
# `SegQueue`: an unbounded queue of linked blocks

`crossbeam/seg_queue.rs` and its use in `flavor/list.rs`: `push`, `pop`, the two halves of `pop`
that `select` uses (`start_read` issues a token, `read` redeems it), and the reclamation of blocks.
A step is one load, store or read-modify-write of one of the positions, of a `next` pointer or of
the state of a slot, or one access to the value of a slot. The steps of the agents interleave
arbitrarily; an agent is one call at a time, or the token that one call has left.

A block holds 31 values; an index has 32 positions for each block, and the last one stands for the
time in which the next block is installed. Blocks are numbered in the order of their installation; a
block that a `push` has allocated in advance is private until then. A freed block keeps its content
here, but every access to it is recorded as `misused`, and a value read from it is `none`.

The history numbers the messages by the successful compare-exchange of their pushes. `step_cases`
says what a step can be: the start of a call, or one of `Goes`.
-/

set_option autoImplicit false

namespace Crossfire.SegQueue

open Lib.Interleaving Function

/-! ## Indices -/

/-- `LAP`: positions of an index per block. -/
def lap : Nat := 32

/-- `BLOCK_CAP`: slots per block. -/
def blockCap : Nat := lap - 1

/-- `(index >> SHIFT) % LAP`. -/
def offsetOf (index : Nat) : Nat := index / 2 % lap

/-- `(index >> SHIFT) / LAP`. -/
def lapOf (index : Nat) : Nat := index / 2 / lap

/-- `index + (1 << SHIFT)`. -/
def advance (index : Nat) : Nat := (index + 2) % 2 ^ 64

/-- `index & HAS_NEXT != 0`. -/
def hasNext (index : Nat) : Bool := index % 2 == 1

/-- `index & !HAS_NEXT`. -/
def clearNext (index : Nat) : Nat := index / 2 * 2

/-- `index | HAS_NEXT`. -/
def setNext (index : Nat) : Nat := index / 2 * 2 + 1

/-! ## State -/

/-- A slot; the bits of its state are `WRITE`, `READ` and `DESTROY`. -/
structure Slot (V : Type) where
  value : Option V
  written : Bool
  read : Bool
  destroy : Bool

/-- A block; `freed` says that it has been deallocated. -/
structure Block (V : Type) where
  next : Option Nat
  slot : Nat → Slot V
  freed : Bool

/-- `Block::new`. -/
def Block.new {V : Type} : Block V := ⟨none, fun _ => ⟨none, false, false, false⟩, false⟩

/-- A slot that a call has claimed, with the number of its message. -/
structure Claim where
  block : Nat
  offset : Nat
  k : Nat
  deriving DecidableEq, Repr

/-- Program counter of an agent. In a `_pop`, `select` says that it is for a token. -/
inductive Pc (V : Type)
  | idle
  -- `push`
  | loadTail (v : V)
  | loadBlock (v : V) (tail : Nat)
  /-- The first push: the compare-exchange of `tail.block` from null. -/
  | casFirst (v : V) (tail : Nat)
  /-- The first push: the store to `head.block`. -/
  | storeFirst (v : V) (tail block : Nat)
  /-- The compare-exchange of `tail.index`. -/
  | cas (v : V) (tail block : Nat)
  /-- The end of a block: the stores to `tail.block`, to `tail.index` and to `next`. -/
  | storeBlock (v : V) (c : Claim) (next newTail : Nat)
  | storeIndex (v : V) (c : Claim) (next newTail : Nat)
  | storeNext (v : V) (c : Claim) (next : Nat)
  | write (v : V) (c : Claim)
  /-- `fetch_or(WRITE)`. -/
  | publish (c : Claim)
  /-- `is_empty` in `try_select(true)`: the loads of `head.index` and of `tail.index`. -/
  | emptyHead
  | emptyTail (head : Nat)
  /-- `_pop::<true>`: the same loads. -/
  | finalHead
  | finalTail (head : Nat)
  -- `_pop`
  | loadHead (select : Bool)
  | loadHeadBlock (select : Bool) (head : Nat)
  /-- The load of `tail.index` when `HAS_NEXT` is not set. -/
  | popTail (select : Bool) (head : Nat) (block : Option Nat)
  /-- The compare-exchange of `head.index`. -/
  | popCas (select : Bool) (head block newHead : Nat)
  /-- The end of a block: `wait_next`, the load of `next` of the next block, the stores to
  `head.block` and to `head.index`. -/
  | waitNext (select : Bool) (c : Claim) (newHead : Nat)
  | peekNext (select : Bool) (c : Claim) (newHead next : Nat)
  | storeHeadBlock (select : Bool) (c : Claim) (next nextIndex : Nat)
  | storeHeadIndex (select : Bool) (c : Claim) (nextIndex : Nat)
  | token (c : Claim)
  -- `_read`
  | waitWrite (c : Claim)
  | value (c : Claim)
  /-- `fetch_or(READ)`, with the value that was read. -/
  | mark (c : Claim) (msg : Option V)
  /-- `destroy` at slot `i`: the load of the state and `fetch_or(DESTROY)`. The message `k` is
  returned afterwards. -/
  | destroyLoad (block i k : Nat) (msg : Option V)
  | destroyMark (block i k : Nat) (msg : Option V)
  | free (block k : Nat) (msg : Option V)

/-- The queue, its agents and the history. -/
structure St (ι V : Type) where
  headIndex : Nat
  headBlock : Option Nat
  tailIndex : Nat
  tailBlock : Option Nat
  blocks : Nat → Block V
  /-- Number of blocks installed so far. -/
  installed : Nat
  pc : ι → Pc V
  pushed : List V
  /-- Number of messages claimed by a `_pop`. -/
  claimed : Nat
  returned : List (Nat × Option V)
  /-- A freed block was accessed, or freed again. -/
  misused : Bool

/-- An empty queue without a block. -/
def St.new {ι V : Type} : St ι V :=
  ⟨0, none, 0, none, fun _ => Block.new, 0, fun _ => .idle, [], 0, [], false⟩

section Step

variable {ι V : Type} [DecidableEq ι]

/-- Agent `i` goes to `pc`. -/
def St.setPc (s : St ι V) (i : ι) (pc : Pc V) : St ι V :=
  { s with pc := update s.pc i pc }

/-- Block `b` is accessed and becomes `block`. -/
def St.access (s : St ι V) (b : Nat) (block : Block V) (i : ι) (pc : Pc V) : St ι V :=
  { s with
    blocks := update s.blocks b block
    misused := s.misused || (s.blocks b).freed
    pc := update s.pc i pc }

/-- A call returns message `k`. -/
def St.give (s : St ι V) (i : ι) (k : Nat) (msg : Option V) : St ι V :=
  { s with pc := update s.pc i .idle, returned := s.returned ++ [(k, msg)] }

/-- A slot of the block changes. -/
def Block.setSlot (b : Block V) (offset : Nat) (slot : Slot V) : Block V :=
  { b with slot := update b.slot offset slot }

/-- The loop of `push` with a loaded tail and block. -/
def pushPc (v : V) (tail : Nat) (block : Option Nat) : Pc V :=
  if offsetOf tail = blockCap then .loadTail v
  else
    match block with
    | none => .casFirst v tail
    | some b => .cas v tail b

/-- The loop of `_pop` after the check for an empty queue. -/
def popCasPc (select : Bool) (head : Nat) (block : Option Nat) (newHead : Nat) : Pc V :=
  match block with
  | none => .loadHead select
  | some b => .popCas select head b newHead

/-- The loop of `_pop` with a loaded head and block. -/
def popPc (select : Bool) (head : Nat) (block : Option Nat) : Pc V :=
  if offsetOf head = blockCap then .loadHead select
  else if hasNext (advance head) then popCasPc select head block (advance head)
  else .popTail select head block

/-- `_pop` returns a slot. -/
def gotPc (select : Bool) (c : Claim) : Pc V := if select then .token c else .waitWrite c

/-- `destroy(block, i)`. -/
def destroyPc (block i k : Nat) (msg : Option V) : Pc V :=
  if i < blockCap - 1 then .destroyLoad block i k msg else .free block k msg

/-- One step of a `push`. -/
def stepPush (s : St ι V) (i : ι) (spurious : Bool) : Pc V → Option (St ι V)
  | .loadTail v => some (s.setPc i (.loadBlock v s.tailIndex))
  | .loadBlock v tail => some (s.setPc i (pushPc v tail s.tailBlock))
  | .casFirst v tail =>
    if s.tailBlock = none then
      some { s with
        tailBlock := some s.installed
        installed := s.installed + 1
        pc := update s.pc i (.storeFirst v tail s.installed) }
    else some (s.setPc i (.loadTail v))
  | .storeFirst v tail block =>
    some { s with headBlock := some block, pc := update s.pc i (.cas v tail block) }
  | .cas v tail block =>
    if s.tailIndex = tail ∧ spurious = false then
      let c : Claim := ⟨block, offsetOf tail, s.pushed.length⟩
      if offsetOf tail + 1 = blockCap then
        some { s with
          tailIndex := advance tail
          pushed := s.pushed ++ [v]
          installed := s.installed + 1
          pc := update s.pc i (.storeBlock v c s.installed (advance tail)) }
      else
        some { s with
          tailIndex := advance tail
          pushed := s.pushed ++ [v]
          pc := update s.pc i (.write v c) }
    else some (s.setPc i (.loadBlock v s.tailIndex))
  | .storeBlock v c next newTail =>
    some { s with
      tailBlock := some next, pc := update s.pc i (.storeIndex v c next newTail) }
  | .storeIndex v c next newTail =>
    some { s with
      tailIndex := advance newTail, pc := update s.pc i (.storeNext v c next) }
  | .storeNext v c next =>
    some (s.access c.block { s.blocks c.block with next := some next } i (.write v c))
  | .write v c =>
    let slot := (s.blocks c.block).slot c.offset
    some (s.access c.block ((s.blocks c.block).setSlot c.offset { slot with value := some v }) i
      (.publish c))
  | .publish c =>
    let slot := (s.blocks c.block).slot c.offset
    some (s.access c.block ((s.blocks c.block).setSlot c.offset { slot with written := true }) i
      .idle)
  | _ => none

/-- One step of a `_pop`. -/
def stepPop (s : St ι V) (i : ι) (spurious : Bool) : Pc V → Option (St ι V)
  | .emptyHead => some (s.setPc i (.emptyTail s.headIndex))
  | .emptyTail head =>
    if head / 2 = s.tailIndex / 2 then some (s.setPc i .idle)
    else some (s.setPc i (.loadHead true))
  | .finalHead => some (s.setPc i (.finalTail s.headIndex))
  | .finalTail head =>
    if head / 2 = s.tailIndex / 2 then some (s.setPc i .idle)
    else some (s.setPc i (.loadHeadBlock false head))
  | .loadHead select => some (s.setPc i (.loadHeadBlock select s.headIndex))
  | .loadHeadBlock select head => some (s.setPc i (popPc select head s.headBlock))
  | .popTail select head block =>
    if head / 2 = s.tailIndex / 2 then some (s.setPc i .idle)
    else
      let newHead :=
        if lapOf head ≠ lapOf s.tailIndex then setNext (advance head) else advance head
      some (s.setPc i (popCasPc select head block newHead))
  | .popCas select head block newHead =>
    if s.headIndex = head ∧ spurious = false then
      let c : Claim := ⟨block, offsetOf head, s.claimed⟩
      some { s with
        headIndex := newHead
        claimed := s.claimed + 1
        pc := update s.pc i
          (if offsetOf head + 1 = blockCap then .waitNext select c newHead
          else gotPc select c) }
    else some (s.setPc i (.loadHeadBlock select s.headIndex))
  | .waitNext select c newHead =>
    let block := s.blocks c.block
    match block.next with
    | none => some (s.access c.block block i (.waitNext select c newHead))
    | some next => some (s.access c.block block i (.peekNext select c newHead next))
  | .peekNext select c newHead next =>
    let block := s.blocks next
    let index := advance (clearNext newHead)
    some (s.access next block i
      (.storeHeadBlock select c next (if block.next.isSome then setNext index else index)))
  | .storeHeadBlock select c next nextIndex =>
    some { s with
      headBlock := some next, pc := update s.pc i (.storeHeadIndex select c nextIndex) }
  | .storeHeadIndex select c nextIndex =>
    some { s with headIndex := nextIndex, pc := update s.pc i (gotPc select c) }
  | _ => none

/-- One step of `_read`. -/
def stepRead (s : St ι V) (i : ι) : Pc V → Option (St ι V)
  | .waitWrite c =>
    let block := s.blocks c.block
    if (block.slot c.offset).written then some (s.access c.block block i (.value c))
    else some (s.access c.block block i (.waitWrite c))
  | .value c =>
    let block := s.blocks c.block
    let msg := if block.freed then none else (block.slot c.offset).value
    some (s.access c.block block i
      (if c.offset + 1 = blockCap then destroyPc c.block 0 c.k msg else .mark c msg))
  | .mark c msg =>
    let slot := (s.blocks c.block).slot c.offset
    let block := (s.blocks c.block).setSlot c.offset { slot with read := true }
    if slot.destroy then
      some (s.access c.block block i (destroyPc c.block (c.offset + 1) c.k msg))
    else some ((s.access c.block block i .idle).give i c.k msg)
  | .destroyLoad b o k msg =>
    let block := s.blocks b
    if (block.slot o).read then some (s.access b block i (destroyPc b (o + 1) k msg))
    else some (s.access b block i (.destroyMark b o k msg))
  | .destroyMark b o k msg =>
    let slot := (s.blocks b).slot o
    let block := (s.blocks b).setSlot o { slot with destroy := true }
    if slot.read then some (s.access b block i (destroyPc b (o + 1) k msg))
    else some ((s.access b block i .idle).give i k msg)
  | .free b k msg =>
    some ((s.access b { s.blocks b with freed := true } i .idle).give i k msg)
  | _ => none

/-- A call starts, or agent `i` takes a step of its call. -/
inductive Act (ι V : Type)
  | push (i : ι) (v : V)
  /-- `pop::<FINAL>`. -/
  | pop (i : ι) (final : Bool)
  /-- `try_select(final_check)`. -/
  | select (i : ι) (final : Bool)
  /-- `read_with_token`. -/
  | redeem (i : ι)
  | go (i : ι) (spurious : Bool)

/-- One action; `none` if it is not possible now. -/
def step (s : St ι V) : Act ι V → Option (St ι V)
  | .push i v => if s.pc i matches .idle then some (s.setPc i (.loadTail v)) else none
  | .pop i final =>
    if s.pc i matches .idle then
      some (s.setPc i (if final then .finalHead else .loadHead false))
    else none
  | .select i final =>
    if s.pc i matches .idle then
      some (s.setPc i (if final then .emptyHead else .loadHead true))
    else none
  | .redeem i =>
    match s.pc i with
    | .token c => some (s.setPc i (.waitWrite c))
    | _ => none
  | .go i spurious =>
    (stepPush s i spurious (s.pc i)).or
      ((stepPop s i spurious (s.pc i)).or (stepRead s i (s.pc i)))

/-- An empty queue, and the steps of its agents. -/
def system : System (St ι V) (Act ι V) := ⟨fun s => s = St.new, step⟩

/-- So few messages were pushed that no index has come around. -/
def indexOk (s : St ι V) (_ : Act ι V) : Prop := s.pushed.length < 2 ^ 57

instance (s : St ι V) (a : Act ι V) : Decidable (indexOk s a) :=
  inferInstanceAs (Decidable (s.pushed.length < 2 ^ 57))

/-! ## What one step does -/

/-- The agent that acts. -/
def Act.agent : Act ι V → ι
  | .push i _ | .pop i _ | .select i _ | .redeem i | .go i _ => i

/-- The first program counter of a call. -/
def Pc.starts : Pc V → Bool
  | .loadTail _ | .emptyHead | .finalHead | .loadHead _ => true
  | _ => false

/-- The steps that change nothing but the program counter. -/
inductive Loads (s : St ι V) : Pc V → Pc V → Prop
  | redeem (c : Claim) : Loads s (.token c) (.waitWrite c)
  | loadTail (v : V) : Loads s (.loadTail v) (.loadBlock v s.tailIndex)
  | tailEnd (v : V) (tail : Nat) : Loads s (.loadBlock v tail) (.loadTail v)
  | noBlock (v : V) (tail : Nat) (hnone : s.tailBlock = none) :
      Loads s (.loadBlock v tail) (.casFirst v tail)
  | loadBlock (v : V) (tail b : Nat) (hoff : offsetOf tail ≠ 31) (hblock : s.tailBlock = some b) :
      Loads s (.loadBlock v tail) (.cas v tail b)
  | notFirst (v : V) (tail : Nat) : Loads s (.casFirst v tail) (.loadTail v)
  | casFails (v : V) (tail b : Nat) : Loads s (.cas v tail b) (.loadBlock v s.tailIndex)
  | emptyHead : Loads s .emptyHead (.emptyTail s.headIndex)
  | empty (head : Nat) : Loads s (.emptyTail head) .idle
  | notEmpty (head : Nat) : Loads s (.emptyTail head) (.loadHead true)
  | finalHead : Loads s .finalHead (.finalTail s.headIndex)
  | finalEmpty (head : Nat) : Loads s (.finalTail head) .idle
  | finalTail (head : Nat) : Loads s (.finalTail head) (.loadHeadBlock false head)
  | loadHead (select : Bool) : Loads s (.loadHead select) (.loadHeadBlock select s.headIndex)
  /-- The head is at the end of a block, or has no block yet. -/
  | headEnd (select : Bool) (head : Nat) : Loads s (.loadHeadBlock select head) (.loadHead select)
  | headNext (select : Bool) (head b : Nat) (hoff : offsetOf head ≠ 31)
      (hnext : hasNext (advance head) = true) (hblock : s.headBlock = some b) :
      Loads s (.loadHeadBlock select head) (.popCas select head b (advance head))
  | loadHeadBlock (select : Bool) (head : Nat) (hoff : offsetOf head ≠ 31)
      (hnext : hasNext (advance head) = false) :
      Loads s (.loadHeadBlock select head) (.popTail select head s.headBlock)
  | popEmpty (select : Bool) (head : Nat) (block : Option Nat) :
      Loads s (.popTail select head block) .idle
  | popEnd (select : Bool) (head : Nat) : Loads s (.popTail select head none) (.loadHead select)
  | popTail (select : Bool) (head b : Nat) (hne : head / 2 ≠ s.tailIndex / 2) :
      Loads s (.popTail select head (some b)) (.popCas select head b
        (if lapOf head ≠ lapOf s.tailIndex then setNext (advance head) else advance head))
  | popFails (select : Bool) (head b newHead : Nat) :
      Loads s (.popCas select head b newHead) (.loadHeadBlock select s.headIndex)

/-- The steps that look at block `b` and change nothing but the program counter. -/
inductive Looks (s : St ι V) : Pc V → Nat → Pc V → Prop
  | noNext (select : Bool) (c : Claim) (newHead : Nat) :
      Looks s (.waitNext select c newHead) c.block (.waitNext select c newHead)
  | waitNext (select : Bool) (c : Claim) (newHead next : Nat)
      (hnext : (s.blocks c.block).next = some next) :
      Looks s (.waitNext select c newHead) c.block (.peekNext select c newHead next)
  | peekNext (select : Bool) (c : Claim) (newHead next : Nat) :
      Looks s (.peekNext select c newHead next) next (.storeHeadBlock select c next
        (if (s.blocks next).next.isSome then setNext (advance (clearNext newHead))
        else advance (clearNext newHead)))
  | unwritten (c : Claim) : Looks s (.waitWrite c) c.block (.waitWrite c)
  | waitWrite (c : Claim) (hwritten : ((s.blocks c.block).slot c.offset).written = true) :
      Looks s (.waitWrite c) c.block (.value c)
  | value (c : Claim) (hin : c.offset ≠ 30) : Looks s (.value c) c.block (.mark c
      (if (s.blocks c.block).freed then none else ((s.blocks c.block).slot c.offset).value))
  | valueLast (c : Claim) (hlast : c.offset = 30) : Looks s (.value c) c.block
      (destroyPc c.block 0 c.k
        (if (s.blocks c.block).freed then none else ((s.blocks c.block).slot c.offset).value))
  | pass (b o k : Nat) (msg : Option V) (hread : ((s.blocks b).slot o).read = true) :
      Looks s (.destroyLoad b o k msg) b (destroyPc b (o + 1) k msg)
  | unread (b o k : Nat) (msg : Option V) :
      Looks s (.destroyLoad b o k msg) b (.destroyMark b o k msg)

/-- What a call of agent `i` does in one step. -/
inductive Goes (s : St ι V) (i : ι) : St ι V → Prop
  | loads (pc : Pc V) (h : Loads s (s.pc i) pc) : Goes s i (s.setPc i pc)
  | looks (b : Nat) (pc : Pc V) (h : Looks s (s.pc i) b pc) :
      Goes s i (s.access b (s.blocks b) i pc)
  | casFirst (v : V) (tail : Nat) (hpc : s.pc i = .casFirst v tail) (hnone : s.tailBlock = none) :
      Goes s i { s with
        tailBlock := some s.installed
        installed := s.installed + 1
        pc := update s.pc i (.storeFirst v tail s.installed) }
  | storeFirst (v : V) (tail b : Nat) (hpc : s.pc i = .storeFirst v tail b) :
      Goes s i { s with headBlock := some b, pc := update s.pc i (.cas v tail b) }
  | cas (v : V) (tail b : Nat) (hpc : s.pc i = .cas v tail b) (htail : s.tailIndex = tail)
      (hin : offsetOf tail + 1 ≠ blockCap) :
      Goes s i { s with
        tailIndex := advance tail
        pushed := s.pushed ++ [v]
        pc := update s.pc i (.write v ⟨b, offsetOf tail, s.pushed.length⟩) }
  | casLast (v : V) (tail b : Nat) (hpc : s.pc i = .cas v tail b) (htail : s.tailIndex = tail)
      (hlast : offsetOf tail + 1 = blockCap) :
      Goes s i { s with
        tailIndex := advance tail
        pushed := s.pushed ++ [v]
        installed := s.installed + 1
        pc := update s.pc i
          (.storeBlock v ⟨b, offsetOf tail, s.pushed.length⟩ s.installed (advance tail)) }
  | storeBlock (v : V) (c : Claim) (next newTail : Nat)
      (hpc : s.pc i = .storeBlock v c next newTail) :
      Goes s i { s with
        tailBlock := some next, pc := update s.pc i (.storeIndex v c next newTail) }
  | storeIndex (v : V) (c : Claim) (next newTail : Nat)
      (hpc : s.pc i = .storeIndex v c next newTail) :
      Goes s i { s with
        tailIndex := advance newTail, pc := update s.pc i (.storeNext v c next) }
  | storeNext (v : V) (c : Claim) (next : Nat) (hpc : s.pc i = .storeNext v c next) :
      Goes s i (s.access c.block { s.blocks c.block with next := some next } i (.write v c))
  | write (v : V) (c : Claim) (hpc : s.pc i = .write v c) :
      Goes s i (s.access c.block ((s.blocks c.block).setSlot c.offset
        { (s.blocks c.block).slot c.offset with value := some v }) i (.publish c))
  | publish (c : Claim) (hpc : s.pc i = .publish c) :
      Goes s i (s.access c.block ((s.blocks c.block).setSlot c.offset
        { (s.blocks c.block).slot c.offset with written := true }) i .idle)
  | popCas (select : Bool) (head b newHead : Nat) (hpc : s.pc i = .popCas select head b newHead)
      (hhead : s.headIndex = head) :
      Goes s i { s with
        headIndex := newHead
        claimed := s.claimed + 1
        pc := update s.pc i (if offsetOf head + 1 = blockCap then
            .waitNext select ⟨b, offsetOf head, s.claimed⟩ newHead
          else gotPc select ⟨b, offsetOf head, s.claimed⟩) }
  | storeHeadBlock (select : Bool) (c : Claim) (next nextIndex : Nat)
      (hpc : s.pc i = .storeHeadBlock select c next nextIndex) :
      Goes s i { s with
        headBlock := some next, pc := update s.pc i (.storeHeadIndex select c nextIndex) }
  | storeHeadIndex (select : Bool) (c : Claim) (nextIndex : Nat)
      (hpc : s.pc i = .storeHeadIndex select c nextIndex) :
      Goes s i { s with headIndex := nextIndex, pc := update s.pc i (gotPc select c) }
  | resume (c : Claim) (msg : Option V) (hpc : s.pc i = .mark c msg)
      (hdestroy : ((s.blocks c.block).slot c.offset).destroy = true) :
      Goes s i (s.access c.block ((s.blocks c.block).setSlot c.offset
        { (s.blocks c.block).slot c.offset with read := true }) i
        (destroyPc c.block (c.offset + 1) c.k msg))
  | mark (c : Claim) (msg : Option V) (hpc : s.pc i = .mark c msg)
      (hdestroy : ((s.blocks c.block).slot c.offset).destroy = false) :
      Goes s i ((s.access c.block ((s.blocks c.block).setSlot c.offset
        { (s.blocks c.block).slot c.offset with read := true }) i .idle).give i c.k msg)
  | passMark (b o k : Nat) (msg : Option V) (hpc : s.pc i = .destroyMark b o k msg)
      (hread : ((s.blocks b).slot o).read = true) :
      Goes s i (s.access b ((s.blocks b).setSlot o { (s.blocks b).slot o with destroy := true }) i
        (destroyPc b (o + 1) k msg))
  | leave (b o k : Nat) (msg : Option V) (hpc : s.pc i = .destroyMark b o k msg)
      (hread : ((s.blocks b).slot o).read = false) :
      Goes s i ((s.access b ((s.blocks b).setSlot o
        { (s.blocks b).slot o with destroy := true }) i .idle).give i k msg)
  | free (b k : Nat) (msg : Option V) (hpc : s.pc i = .free b k msg) :
      Goes s i ((s.access b { s.blocks b with freed := true } i .idle).give i k msg)

variable {s t : St ι V} {i : ι}

/-- A step of `push`. -/
theorem goes_of_stepPush {spurious : Bool} (hst : stepPush s i spurious (s.pc i) = some t) :
    Goes s i t := by
  have hloads {pc : Pc V} (h : Loads s (s.pc i) pc) : Goes s i (s.setPc i pc) := .loads pc h
  generalize hpc : s.pc i = pc at hst hloads
  cases pc with
  | loadTail v => cases hst; exact hloads (.loadTail v)
  | loadBlock v tail =>
    simp only [stepPush, pushPc] at hst
    split_ifs at hst with hoff
    · cases hst; exact hloads (.tailEnd v tail)
    · cases hblock : s.tailBlock with
      | none => rw [hblock] at hst; cases hst; exact hloads (.noBlock v tail hblock)
      | some b => rw [hblock] at hst; cases hst; exact hloads (.loadBlock v tail b hoff hblock)
  | casFirst v tail =>
    simp only [stepPush] at hst
    split_ifs at hst with hnone <;> cases hst
    · exact .casFirst v tail hpc hnone
    · exact hloads (.notFirst v tail)
  | storeFirst v tail b => cases hst; exact .storeFirst v tail b hpc
  | cas v tail b =>
    simp only [stepPush] at hst
    split_ifs at hst with htail hlast <;> cases hst
    · exact .casLast v tail b hpc htail.1 hlast
    · exact .cas v tail b hpc htail.1 hlast
    · exact hloads (.casFails v tail b)
  | storeBlock v c next newTail => cases hst; exact .storeBlock v c next newTail hpc
  | storeIndex v c next newTail => cases hst; exact .storeIndex v c next newTail hpc
  | storeNext v c next => cases hst; exact .storeNext v c next hpc
  | write v c => cases hst; exact .write v c hpc
  | publish c => cases hst; exact .publish c hpc
  | _ => cases hst

/-- A step of `pop` or `start_read`. -/
theorem goes_of_stepPop {spurious : Bool} (hst : stepPop s i spurious (s.pc i) = some t) :
    Goes s i t := by
  have hloads {pc : Pc V} (h : Loads s (s.pc i) pc) : Goes s i (s.setPc i pc) := .loads pc h
  have hlooks {b : Nat} {pc : Pc V} (h : Looks s (s.pc i) b pc) :
      Goes s i (s.access b (s.blocks b) i pc) := .looks b pc h
  generalize hpc : s.pc i = pc at hst hloads hlooks
  cases pc with
  | emptyHead => cases hst; exact hloads .emptyHead
  | emptyTail head =>
    simp only [stepPop] at hst
    split_ifs at hst <;> cases hst
    · exact hloads (.empty head)
    · exact hloads (.notEmpty head)
  | finalHead => cases hst; exact hloads .finalHead
  | finalTail head =>
    simp only [stepPop] at hst
    split_ifs at hst <;> cases hst
    · exact hloads (.finalEmpty head)
    · exact hloads (.finalTail head)
  | loadHead select => cases hst; exact hloads (.loadHead select)
  | loadHeadBlock select head =>
    simp only [stepPop, popPc, popCasPc] at hst
    split_ifs at hst with hoff hnext
    · cases hst; exact hloads (.headEnd select head)
    · cases hblock : s.headBlock with
      | none => rw [hblock] at hst; cases hst; exact hloads (.headEnd select head)
      | some b =>
        rw [hblock] at hst
        cases hst
        exact hloads (.headNext select head b hoff hnext hblock)
    · cases hst
      exact hloads (.loadHeadBlock select head hoff (Bool.eq_false_iff.mpr hnext))
  | popTail select head block =>
    simp only [stepPop] at hst
    split at hst
    · cases hst; exact hloads (.popEmpty select head block)
    · next hne =>
        cases hst
        cases block with
        | none => exact hloads (.popEnd select head)
        | some b => exact hloads (.popTail select head b hne)
  | popCas select head b newHead =>
    simp only [stepPop] at hst
    split at hst <;> cases hst
    · next hhead => exact .popCas select head b newHead hpc hhead.1
    · exact hloads (.popFails select head b newHead)
  | waitNext select c newHead =>
    simp only [stepPop] at hst
    split at hst <;> cases hst
    · exact hlooks (.noNext select c newHead)
    · next next hnext => exact hlooks (.waitNext select c newHead next hnext)
  | peekNext select c newHead next => cases hst; exact hlooks (.peekNext select c newHead next)
  | storeHeadBlock select c next index => cases hst; exact .storeHeadBlock select c next index hpc
  | storeHeadIndex select c index => cases hst; exact .storeHeadIndex select c index hpc
  | _ => cases hst

/-- A step of `read`. -/
theorem goes_of_stepRead (hst : stepRead s i (s.pc i) = some t) : Goes s i t := by
  have hlooks {b : Nat} {pc : Pc V} (h : Looks s (s.pc i) b pc) :
      Goes s i (s.access b (s.blocks b) i pc) := .looks b pc h
  generalize hpc : s.pc i = pc at hst hlooks
  cases pc with
  | waitWrite c =>
    simp only [stepRead] at hst
    split_ifs at hst with hwritten <;> cases hst
    · exact hlooks (.waitWrite c hwritten)
    · exact hlooks (.unwritten c)
  | value c =>
    cases hst
    have hcap : c.offset + 1 = blockCap ↔ c.offset = 30 := Nat.succ_inj
    split
    · next hlast => exact hlooks (.valueLast c (hcap.mp hlast))
    · next hin => exact hlooks (.value c (mt hcap.mpr hin))
  | mark c msg =>
    simp only [stepRead] at hst
    split_ifs at hst with hdestroy <;> cases hst
    · exact .resume c msg hpc hdestroy
    · exact .mark c msg hpc (Bool.eq_false_iff.mpr hdestroy)
  | destroyLoad b o k msg =>
    simp only [stepRead] at hst
    split_ifs at hst with hread <;> cases hst
    · exact hlooks (.pass b o k msg hread)
    · exact hlooks (.unread b o k msg)
  | destroyMark b o k msg =>
    simp only [stepRead] at hst
    split_ifs at hst with hread <;> cases hst
    · exact .passMark b o k msg hpc hread
    · exact .leave b o k msg hpc (Bool.eq_false_iff.mpr hread)
  | free b k msg => cases hst; exact .free b k msg hpc
  | _ => cases hst

theorem goes_of_go {spurious : Bool} (hst : step s (.go i spurious) = some t) : Goes s i t := by
  rcases Option.or_eq_some_iff.mp hst with hpush | ⟨-, hrest⟩
  · exact goes_of_stepPush hpush
  · rcases Option.or_eq_some_iff.mp hrest with hpop | ⟨-, hread⟩
    · exact goes_of_stepPop hpop
    · exact goes_of_stepRead hread

theorem goes_of_redeem (hst : step s (.redeem i) = some t) : Goes s i t := by
  have hloads {pc : Pc V} (h : Loads s (s.pc i) pc) : Goes s i (s.setPc i pc) := .loads pc h
  simp only [step] at hst
  split at hst <;> cases hst
  next c hpc => exact hloads (hpc ▸ .redeem c)

/-- A call starts, or a call takes a step. -/
theorem step_cases {a : Act ι V} (hst : step s a = some t) :
    (∃ pc, s.pc a.agent = .idle ∧ pc.starts = true ∧ t = s.setPc a.agent pc) ∨
      Goes s a.agent t := by
  cases a with
  | push i v =>
    simp only [step] at hst
    split at hst <;> cases hst
    next hidle => exact .inl ⟨_, hidle, rfl, rfl⟩
  | pop i final | select i final =>
    simp only [step] at hst
    split at hst <;> cases hst
    next hidle => exact .inl ⟨_, hidle, by cases final <;> rfl, rfl⟩
  | redeem i => exact .inr (goes_of_redeem hst)
  | go i spurious => exact .inr (goes_of_go hst)

end Step

end Crossfire.SegQueue
