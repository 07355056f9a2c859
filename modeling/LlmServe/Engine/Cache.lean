import LlmServe.Engine.BlockManager
import LlmServe.Infra.Paging
import Mathlib.Data.Rat.Defs

/-!
# KV cache storage (`engine/cache.py`)

A tensor is a function of its indices. The axes of heads and of `head_dim` are never indexed, so
an entry here is the slice of all heads at one position, `K` of keys and `V` of values.

An access is what one forward step knows of the cache: which entries of the pool it assigns, and
from which row and column of the new `k` and `v` (`writes`), and where it gathers key `j` of row `i`
from (`reads`). `SlotAccess` and `PagedAccess` differ in these index lists only. An index out of
range is found when the access is built here, and in `write` or `gather` there.
-/

namespace LlmServe

open Infra

/-! ## Pools -/

/-- The tensors `k` and `v` of a pool: layer, then slot or block, then position or offset. -/
structure KVStore (K V : Type) where
  k : Nat → Nat × Nat → K
  v : Nat → Nat × Nat → V

/-- The sizes of `SlotPool(n_slots)` and `PagedPool(num_blocks, block_size)`. -/
inductive Layout where
  | slots (nSlots : Nat) (maxLen : Nat)
  | blocks (numBlocks : Nat) (blockSize : Nat)
  deriving DecidableEq

structure Pool (K V : Type) where
  layout : Layout
  store : KVStore K V

/-- The pool `Engine.__init__` builds beside its allocator. -/
def Manager.layout : Manager → Layout
  | .slot m => .slots m.nSlots LlmServe.maxLen
  | .block m => .blocks m.numBlocks m.blockSize

/-! ## `BatchAccess` -/

structure BatchAccess where
  starts : List Nat
  ns : List Nat
  /-- Columns: the most new tokens of a row. -/
  t : Nat
  totals : List Nat
  /-- Keys: the longest row after this step. -/
  lk : Nat

namespace BatchAccess

def new (starts ns : List Nat) : Except PyError BatchAccess :=
  let totals := List.zipWith (· + ·) starts ns
  match ns.max?, totals.max? with
  | some t, some lk => .ok { starts, ns, t, totals, lk }
  | _, _ => .error (.valueError "max() arg is an empty sequence")

/-- The batch size. -/
def b (a : BatchAccess) : Nat := a.starts.length

/-- `build_mask`: a mask over row, query and key, and `is_causal`. -/
def buildMask (a : BatchAccess) : Option (Nat → Nat → Nat → Bool) × Bool :=
  if a.b = 1 ∧ a.starts.getD 0 0 = 0 ∧ 1 < a.t then (none, true)
  else if a.b = 1 ∧ a.t = 1 then (none, false)
  else (some fun i c j => j ≤ a.starts.getD i 0 + c && j < a.totals.getD i 0, false)

/-- The keys that `scaled_dot_product_attention` lets query `c` of row `i` see, in order. -/
def keys (a : BatchAccess) (i c : Nat) : List Nat :=
  (List.range a.lk).filter fun j =>
    match a.buildMask with
    | (some mask, _) => mask i c j
    | (none, true) => j ≤ c
    | (none, false) => true

/-- `positions()`. -/
def positions (a : BatchAccess) (i c : Nat) : Nat := min (a.starts.getD i 0 + c) (maxLen - 1)

/-- The column `ns[i] - 1`; column -1 is the last one. -/
def lastColumn (a : BatchAccess) (i : Nat) : Nat :=
  if a.ns.getD i 0 = 0 then a.t - 1 else a.ns.getD i 0 - 1

end BatchAccess

structure CacheAccess extends BatchAccess where
  writes : List ((Nat × Nat) × (Nat × Nat))
  reads : Nat → Nat → Nat × Nat

/-! ## `SlotAccess` and `PagedAccess` -/

/-- The entries `SlotAccess.write` assigns: one for each row in a decode step, else one for each
new token. -/
def slotWrites (t : Nat) (slots starts ns : List Nat) : List ((Nat × Nat) × (Nat × Nat)) :=
  if t = 1 then (slots.zip starts).zipIdx.map fun x => ((x.1.1, x.1.2), (x.2, 0))
  else (slots.zip (starts.zip ns)).zipIdx.flatMap fun x =>
    (List.range x.1.2.2).map fun c => ((x.1.1, x.1.2.1 + c), (x.2, c))

/-- `SlotPool.access`: the block table of a request is its slot. -/
def SlotAccess (nSlots maxLen : Nat) (tables : List (List Nat)) (starts ns : List Nat) :
    Except PyError CacheAccess := do
  let slots ← tables.mapM fun bt =>
    match bt with
    | [] => .error (.indexError "list index out of range")
    | slot :: _ => .ok slot
  let acc ← BatchAccess.new starts ns
  let writes := slotWrites acc.t slots starts ns
  if writes.all fun w => w.1.1 < nSlots && w.1.2 < maxLen then
    return { acc with writes, reads := fun i j => (slots.getD i 0, j) }
  else .error (.indexError "index out of range")

/-- `bt[p // bs]` and `p % bs`. -/
def blockOf (bs : Nat) (bt : List Nat) (p : Nat) : Except PyError (Nat × Nat) :=
  match bt[p / bs]? with
  | some block => .ok (block, p % bs)
  | none => .error (.indexError "index out of range")

/-- The entries `PagedAccess.write` assigns: one for each row in a decode step, else one for each
new token. `torch.tensor([])` holds floats, so a row without blocks cannot be written at all. -/
def pagedWrites (bs t : Nat) (tables : List (List Nat)) (starts ns : List Nat) :
    Except PyError (List ((Nat × Nat) × (Nat × Nat))) :=
  if t = 1 then
    (tables.zip starts).zipIdx.mapM fun x => (blockOf bs x.1.1 x.1.2).map fun a => (a, (x.2, 0))
  else
    ((tables.zip (starts.zip ns)).zipIdx.mapM fun x =>
      if x.1.1 = [] then .error (.indexError "tensors used as indices must be long")
      else (List.range x.1.2.2).mapM fun c =>
        (blockOf bs x.1.1 (x.1.2.1 + c)).map fun a => (a, (x.2, c))).map List.flatten

/-- `PagedPool.access`. -/
def PagedAccess (numBlocks bs : Nat) (tables : List (List Nat)) (starts ns : List Nat) :
    Except PyError CacheAccess := do
  let acc ← BatchAccess.new starts ns
  let nb := (-(-(acc.lk : Int) / bs)).toNat
  let padded := tables.map fun bt => bt.take nb ++ List.replicate (nb - (bt.take nb).length) 0
  let writes ← pagedWrites bs acc.t tables starts ns
  if writes.all fun w => w.1.1 < numBlocks then
    return { acc with writes, reads := fun i j => ((padded.getD i []).getD (j / bs) 0, j % bs) }
  else .error (.indexError "index out of range")

/-- `pool.access(block_tables, starts, ns)`. -/
def Layout.access : Layout → List (List Nat) → List Nat → List Nat → Except PyError CacheAccess
  | .slots nSlots maxLen => SlotAccess nSlots maxLen
  | .blocks numBlocks blockSize => PagedAccess numBlocks blockSize

namespace KVStore

variable {K V : Type}

/-- `acc.write(layer, k, v)`. -/
def write (s : KVStore K V) (acc : CacheAccess) (layer : Nat) (k : Nat → Nat → K)
    (v : Nat → Nat → V) : KVStore K V :=
  { k := Function.update s.k layer
      (assign (s.k layer) (acc.writes.map fun w => (w.1, k w.2.1 w.2.2)))
    v := Function.update s.v layer
      (assign (s.v layer) (acc.writes.map fun w => (w.1, v w.2.1 w.2.2))) }

/-- `acc.gather(layer)` at row `i` and key `j`. -/
def gather (s : KVStore K V) (acc : CacheAccess) (layer i j : Nat) : K × V :=
  (s.k layer (acc.reads i j), s.v layer (acc.reads i j))

end KVStore

/-! ## `ContiguousKVCache` -/

/-- The cache of one sequence: layer, then position. -/
structure ContiguousKVCache (K V : Type) where
  k : Nat → Nat → K
  v : Nat → Nat → V

namespace ContiguousKVCache

variable {K V : Type}

/-- `write(layer, start, k, v)` for `t` new positions. -/
def write (c : ContiguousKVCache K V) (layer start t : Nat) (k : Nat → K) (v : Nat → V) :
    ContiguousKVCache K V :=
  { k := Function.update c.k layer fun p =>
      if start ≤ p ∧ p < start + t then k (p - start) else c.k layer p
    v := Function.update c.v layer fun p =>
      if start ≤ p ∧ p < start + t then v (p - start) else c.v layer p }

/-- `read(layer, n)` at position `j`. -/
def read (c : ContiguousKVCache K V) (layer j : Nat) : K × V := (c.k layer j, c.v layer j)

end ContiguousKVCache

end LlmServe
