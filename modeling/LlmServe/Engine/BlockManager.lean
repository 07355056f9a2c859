import LlmServe.Engine.Request
import LlmServe.Infra.Dict
import Mathlib.Algebra.BigOperators.Group.List.Basic
import Mathlib.Data.Int.ConditionallyCompleteOrder

/-!
# Allocators for KV memory (`engine/block_manager.py`)

`SlotManager` hands out one full-length slot for each request, `BlockManager` fixed-size blocks on
demand. Both keep a LIFO free list; it is written here with its top first, so `pop()` takes the
head and `extend(reversed(table))` puts the table back in front.

The scheduler uses either through one interface (`Manager`). The specification lemmas at the end
speak of both at once: `freeUnits` is the free list, `unitsNeeded n` what `n` tokens occupy.
-/

namespace LlmServe

open Infra

/-- `2 * N_LAYERS * N_HEADS * HEAD_DIM * 4`. -/
def bytesPerToken : Nat := 2 * 12 * 12 * 64 * 4

/-- What `stats()` returns. -/
structure Stats where
  used : Int
  total : Int
  liveTokens : Int
  capacityTokens : Int

/-- `sum(r.seq_len for r in self.live.values())`. -/
def liveTokens (heap : Ref → Request) (live : Dict String Ref) : Int :=
  (live.values.map fun r => ((heap r).seqLen : Int)).sum

/-! ## Contiguous slots -/

structure SlotManager where
  nSlots : Nat
  maxLen : Nat := LlmServe.maxLen
  freeSlots : List Nat
  live : Dict String Ref

namespace SlotManager

/-- `SlotManager(n_slots)`. -/
def new (nSlots : Nat) : SlotManager :=
  { nSlots, freeSlots := List.range nSlots, live := .empty }

def canAllocate (m : SlotManager) (_q : Request) (_headroom : Nat) : Bool :=
  0 < m.freeSlots.length

def allocate (m : SlotManager) (r : Ref) (q : Request) : Except PyError (SlotManager × Request) :=
  match m.freeSlots with
  | [] => .error (.indexError "pop from empty list")
  | slot :: rest =>
    .ok ({ m with freeSlots := rest, live := m.live.set q.requestId r },
      { q with blockTable := [slot] })

def fitsEver (m : SlotManager) (promptLen : Nat) (maxNew : Int) : Bool :=
  promptLen + maxNew ≤ m.maxLen

/-- The whole slot was reserved at admission. -/
def appendSlot (m : SlotManager) (q : Request) : Bool × SlotManager × Request := (true, m, q)

def free (m : SlotManager) (q : Request) : Except PyError (SlotManager × Request) :=
  match q.blockTable with
  | [] => .error (.indexError "list index out of range")
  | slot :: _ =>
    .ok ({ m with freeSlots := slot :: m.freeSlots, live := m.live.pop q.requestId },
      { q with blockTable := [] })

def stats (m : SlotManager) (heap : Ref → Request) : Stats :=
  { used := m.nSlots - m.freeSlots.length
    total := m.nSlots
    liveTokens := LlmServe.liveTokens heap m.live
    capacityTokens := m.live.entries.length * m.maxLen }

def slotsForBudget (budgetBytes : Nat) : Nat :=
  max 1 (budgetBytes / (LlmServe.maxLen * bytesPerToken))

end SlotManager

/-! ## Paged blocks -/

structure BlockManager where
  numBlocks : Nat
  blockSize : Nat
  blockSize_pos : 0 < blockSize
  freeBlocks : List Nat
  live : Dict String Ref
  reserveMaxNew : Bool
  committed : Dict String Int

namespace BlockManager

/-- `BlockManager(num_blocks, block_size, reserve_max_new)`. -/
def new (numBlocks blockSize : Nat) (blockSize_pos : 0 < blockSize) (reserveMaxNew : Bool) :
    BlockManager :=
  { numBlocks, blockSize, blockSize_pos, reserveMaxNew
    freeBlocks := List.range numBlocks, live := .empty, committed := .empty }

/-- `-(-n_tokens // block_size)`, with the floor division of the source. -/
def blocksNeeded (m : BlockManager) (nTokens : Int) : Int := -(-nTokens / m.blockSize)

def fitsEver (m : BlockManager) (promptLen : Nat) (maxNew : Int) : Bool :=
  m.blocksNeeded (promptLen + maxNew) ≤ m.numBlocks

/-- What `allocate` commits for a request: the blocks of its prompt and all its new tokens. -/
def worst (m : BlockManager) (q : Request) : Int :=
  m.blocksNeeded (q.promptTokenIds.length + q.maxNewTokens)

def canAllocate (m : BlockManager) (q : Request) (headroom : Nat) : Bool :=
  let need := m.blocksNeeded q.seqLen
  if m.reserveMaxNew then
    m.committed.values.sum + m.worst q ≤ m.numBlocks
  else
    need + headroom ≤ m.freeBlocks.length

def allocate (m : BlockManager) (r : Ref) (q : Request) :
    Except PyError (BlockManager × Request) :=
  let need := m.blocksNeeded q.seqLen
  if need ≤ m.freeBlocks.length then
    .ok ({ m with
            freeBlocks := m.freeBlocks.drop need.toNat
            live := m.live.set q.requestId r
            committed := m.committed.set q.requestId (m.worst q) },
      { q with blockTable := m.freeBlocks.take need.toNat })
  else
    .error (.assertionError "allocate() called without can_allocate()")

/-- The loop of `append_slot`: the answer, the block table and the free list it leaves. -/
def appendLoop (need : Int) : List Nat → List Nat → Bool × List Nat × List Nat
  | table, [] => if table.length < need then (false, table, []) else (true, table, [])
  | table, b :: rest =>
    if table.length < need then appendLoop need (table ++ [b]) rest else (true, table, b :: rest)

def appendSlot (m : BlockManager) (q : Request) : Bool × BlockManager × Request :=
  let (ok, table, free) := appendLoop (m.blocksNeeded q.seqLen) q.blockTable m.freeBlocks
  (ok, { m with freeBlocks := free }, { q with blockTable := table })

def free (m : BlockManager) (q : Request) : BlockManager × Request :=
  ({ m with
      freeBlocks := q.blockTable ++ m.freeBlocks
      live := m.live.pop q.requestId
      committed := m.committed.pop q.requestId },
    { q with blockTable := [] })

def stats (m : BlockManager) (heap : Ref → Request) : Stats :=
  let used : Int := m.numBlocks - m.freeBlocks.length
  { used, total := m.numBlocks
    liveTokens := LlmServe.liveTokens heap m.live
    capacityTokens := used * m.blockSize }

def blocksForBudget (budgetBytes blockSize : Nat) : Nat :=
  budgetBytes / (blockSize * bytesPerToken)

end BlockManager

/-! ## The interface the scheduler uses -/

/-- `self.manager`: either allocator. -/
inductive Manager where
  | slot (m : SlotManager)
  | block (m : BlockManager)

namespace Manager

def canAllocate : Manager → Request → Nat → Bool
  | slot m => m.canAllocate
  | block m => m.canAllocate

def allocate (r : Ref) (q : Request) : Manager → Except PyError (Manager × Request)
  | slot m => (m.allocate r q).map fun p => (slot p.1, p.2)
  | block m => (m.allocate r q).map fun p => (block p.1, p.2)

def fitsEver : Manager → Nat → Int → Bool
  | slot m => m.fitsEver
  | block m => m.fitsEver

def appendSlot (q : Request) : Manager → Bool × Manager × Request
  | slot m => let (ok, m, q) := m.appendSlot q; (ok, slot m, q)
  | block m => let (ok, m, q) := m.appendSlot q; (ok, block m, q)

def free (q : Request) : Manager → Except PyError (Manager × Request)
  | slot m => (m.free q).map fun p => (slot p.1, p.2)
  | block m => .ok (block (m.free q).1, (m.free q).2)

def stats (heap : Ref → Request) : Manager → Stats
  | slot m => m.stats heap
  | block m => m.stats heap

/-! ## What the two allocators have in common -/

/-- `free_slots` or `free_blocks`. -/
def freeUnits : Manager → List Nat
  | slot m => m.freeSlots
  | block m => m.freeBlocks

/-- `n_slots` or `num_blocks`. -/
def units : Manager → Nat
  | slot m => m.nSlots
  | block m => m.numBlocks

def live : Manager → Dict String Ref
  | slot m => m.live
  | block m => m.live

/-- `committed`, which only the paged allocator keeps. -/
def committed : Manager → Dict String Int
  | slot _ => .empty
  | block m => m.committed

def paged : Manager → Bool
  | slot _ => false
  | block _ => true

/-- `reserve_max_new`: admission by the worst case. -/
def reserves : Manager → Bool
  | slot _ => false
  | block m => m.reserveMaxNew

/-- Slots or blocks that `n` tokens occupy. -/
def unitsNeeded : Manager → Int → Int
  | slot _, _ => 1
  | block m, n => m.blocksNeeded n

/-- The most a request can come to hold. -/
def worst (m : Manager) (q : Request) : Int :=
  m.unitsNeeded (q.promptTokenIds.length + q.maxNewTokens)

/-- A manager as `__init__` leaves it, but for the order of the free list. -/
def Fresh : Manager → Prop
  | slot m => m.freeSlots.Perm (List.range m.nSlots) ∧ m.live = .empty
  | block m => m.freeBlocks.Perm (List.range m.numBlocks) ∧ m.live = .empty ∧ m.committed = .empty

theorem fresh_slot_new (n : Nat) : (slot (.new n)).Fresh := ⟨List.Perm.refl _, rfl⟩

theorem fresh_block_new (n b : Nat) (hb : 0 < b) (res : Bool) : (block (.new n b hb res)).Fresh :=
  ⟨List.Perm.refl _, rfl, rfl⟩

end Manager

end LlmServe
