import LlmServe.Engine.BlockManager
import LlmServe.Infra.Machine
import Mathlib.Tactic.Ring

/-!
# What the allocators do

One lemma for each operation of `Manager`, about both allocators at once. Nothing later unfolds
an allocator: the scheduler's proofs use these lemmas and the few facts about `unitsNeeded`.
-/

namespace LlmServe

open Infra

/-! ## Rounding up -/

namespace BlockManager

variable (m : BlockManager)

/-- `blocksNeeded` is the ceiling: `k` blocks are enough for `n` tokens iff `n ≤ k * block_size`. -/
theorem blocksNeeded_le_iff {n k : Int} : m.blocksNeeded n ≤ k ↔ n ≤ k * m.blockSize := by
  have hb : (0 : Int) < m.blockSize := by exact_mod_cast m.blockSize_pos
  have hneg : -(-n / m.blockSize) ≤ k ↔ -k ≤ -n / (m.blockSize : Int) := by omega
  rw [blocksNeeded, hneg, Int.le_ediv_iff_mul_le hb, Int.neg_mul, Int.neg_le_neg_iff]

theorem blocksNeeded_mono {n n' : Int} (h : n ≤ n') : m.blocksNeeded n ≤ m.blocksNeeded n' :=
  (m.blocksNeeded_le_iff).mpr (h.trans ((m.blocksNeeded_le_iff).mp le_rfl))

theorem blocksNeeded_succ_le (n : Int) : m.blocksNeeded n ≤ m.blocksNeeded (n - 1) + 1 := by
  have hb : (1 : Int) ≤ m.blockSize := by exact_mod_cast m.blockSize_pos
  have h := (m.blocksNeeded_le_iff (n := n - 1)).mp le_rfl
  rw [blocksNeeded_le_iff, Int.add_mul]
  omega

theorem blocksNeeded_nonneg {n : Int} (h : 0 ≤ n) : 0 ≤ m.blocksNeeded n := by
  have h0 : (0 : Int) ≤ m.blocksNeeded 0 := by simp [blocksNeeded]
  exact h0.trans (m.blocksNeeded_mono h)

theorem blocksNeeded_pos {n : Int} (h : 0 < n) : 0 < m.blocksNeeded n := by
  by_contra hle
  have := (m.blocksNeeded_le_iff (n := n) (k := 0)).mp (by omega)
  omega

/--
The loop of `append_slot` moves a prefix of the free list to the end of the table. It answers
`true` once the table is long enough, and `false` only with the free list used up.
-/
theorem appendLoop_spec (need : Int) : ∀ free table : List Nat,
    ∃ blocks, (appendLoop need table free).2.1 = table ++ blocks ∧
      free = blocks ++ (appendLoop need table free).2.2 ∧
      ((appendLoop need table free).1 = true →
        need ≤ (table ++ blocks).length ∧ (blocks ≠ [] → need = (table ++ blocks).length)) ∧
      ((appendLoop need table free).1 = false →
        (appendLoop need table free).2.2 = [] ∧ ((table ++ blocks).length : Int) < need)
  | [], table => by
    refine ⟨[], ?_⟩
    by_cases h : (table.length : Int) < need
    · simp [appendLoop, h]
    · simp only [appendLoop, h, if_false, List.append_nil]
      exact ⟨trivial, trivial, fun _ => ⟨by omega, fun hne => absurd rfl hne⟩, by simp⟩
  | b :: rest, table => by
    by_cases h : (table.length : Int) < need
    · obtain ⟨blocks, ht, hf, htrue, hfalse⟩ := appendLoop_spec need rest (table ++ [b])
      have hstep : appendLoop need table (b :: rest) = appendLoop need (table ++ [b]) rest := by
        rw [appendLoop, if_pos h]
      have hassoc : table ++ [b] ++ blocks = table ++ b :: blocks := by simp
      rw [hassoc] at ht htrue hfalse
      refine ⟨b :: blocks, by rw [hstep, ht], by rw [hstep, List.cons_append, ← hf], ?_, ?_⟩
      · rw [hstep]
        intro hok
        obtain ⟨hle, heq⟩ := htrue hok
        refine ⟨hle, fun _ => ?_⟩
        by_cases hb : blocks = []
        · subst hb
          simp only [List.length_append, List.length_singleton] at hle ⊢
          omega
        · exact heq hb
      · rw [hstep]
        exact hfalse
    · refine ⟨[], ?_⟩
      simp only [appendLoop, h, if_false, List.append_nil, List.nil_append]
      exact ⟨trivial, trivial, fun _ => ⟨by omega, fun hne => absurd rfl hne⟩, by simp⟩

end BlockManager

namespace Manager

/-- What no operation changes about an allocator. -/
structure SameShape (m m' : Manager) : Prop where
  units : m'.units = m.units
  unitsNeeded : m'.unitsNeeded = m.unitsNeeded
  fitsEver : m'.fitsEver = m.fitsEver
  paged : m'.paged = m.paged
  reserves : m'.reserves = m.reserves

theorem SameShape.refl (m : Manager) : m.SameShape m := ⟨rfl, rfl, rfl, rfl, rfl⟩

theorem SameShape.trans {m₁ m₂ m₃ : Manager} (h : m₁.SameShape m₂) (h' : m₂.SameShape m₃) :
    m₁.SameShape m₃ :=
  ⟨h'.units.trans h.units, h'.unitsNeeded.trans h.unitsNeeded, h'.fitsEver.trans h.fitsEver,
    h'.paged.trans h.paged, h'.reserves.trans h.reserves⟩

theorem SameShape.worst {m m' : Manager} (h : m.SameShape m') (q : Request) :
    m'.worst q = m.worst q := by
  unfold Manager.worst
  rw [h.unitsNeeded]

theorem unitsNeeded_mono (m : Manager) {n n' : Int} (h : n ≤ n') :
    m.unitsNeeded n ≤ m.unitsNeeded n' := by
  cases m with
  | slot m => exact le_rfl
  | block m => exact m.blocksNeeded_mono h

/-- One more token takes at most one more unit. -/
theorem unitsNeeded_succ_le (m : Manager) (n : Int) :
    m.unitsNeeded n ≤ m.unitsNeeded (n - 1) + 1 := by
  cases m with
  | slot m => show (1 : Int) ≤ 1 + 1; omega
  | block m => exact m.blocksNeeded_succ_le n

theorem unitsNeeded_nonneg (m : Manager) {n : Int} (h : 0 ≤ n) : 0 ≤ m.unitsNeeded n := by
  cases m with
  | slot m => exact Int.one_nonneg
  | block m => exact m.blocksNeeded_nonneg h

theorem unitsNeeded_pos (m : Manager) {n : Int} (h : 0 < n) : 0 < m.unitsNeeded n := by
  cases m with
  | slot m => exact Int.one_pos
  | block m => exact m.blocksNeeded_pos h

/-! ## The operations -/

/-- **`allocate`** moves the units of `seq_len` tokens from the free list to an empty table. -/
theorem allocate_ok {m m' : Manager} {r : Ref} {q q' : Request}
    (h : m.allocate r q = .ok (m', q')) :
    ∃ blocks, q' = { q with blockTable := blocks } ∧ m.freeUnits = blocks ++ m'.freeUnits ∧
      (blocks.length : Int) = m.unitsNeeded q.seqLen ∧ m.SameShape m' ∧
      m'.live = m.live.set q.requestId r ∧
      (m.paged = true → m'.committed = m.committed.set q.requestId (m.worst q)) := by
  cases m with
  | slot m =>
    obtain ⟨⟨m₁, q₁⟩, hm, he⟩ := exists_of_map_ok h
    unfold SlotManager.allocate at hm
    split at hm
    · cases hm
    · next slot rest hfree =>
      cases hm
      cases he
      exact ⟨[slot], rfl, hfree, rfl, ⟨rfl, rfl, rfl, rfl, rfl⟩, rfl, nofun⟩
  | block m =>
    obtain ⟨⟨m₁, q₁⟩, hm, he⟩ := exists_of_map_ok h
    simp only [BlockManager.allocate] at hm
    split at hm
    · next hle =>
      cases hm
      cases he
      have hn := m.blocksNeeded_nonneg (n := q.seqLen) (by omega)
      refine ⟨_, rfl, (List.take_append_drop _ _).symm, ?_, ⟨rfl, rfl, rfl, rfl, rfl⟩, rfl,
        fun _ => rfl⟩
      rw [List.length_take]
      show ((min (m.blocksNeeded q.seqLen).toNat m.freeBlocks.length : Nat) : Int)
        = m.blocksNeeded q.seqLen
      omega
    · cases hm

/-- `allocate` raises only when the free list is shorter than the request. -/
theorem allocate_isOk {m : Manager} {r : Ref} {q : Request}
    (h : m.unitsNeeded q.seqLen ≤ m.freeUnits.length) : ∃ p, m.allocate r q = .ok p := by
  cases m with
  | slot m =>
    cases hf : m.freeSlots with
    | nil =>
      change (1 : Int) ≤ m.freeSlots.length at h
      rw [hf] at h
      simp at h
    | cons slot rest => exact ⟨_, by simp only [allocate, SlotManager.allocate, hf]; rfl⟩
  | block m =>
    change m.blocksNeeded q.seqLen ≤ m.freeBlocks.length at h
    exact ⟨_, by simp only [allocate, BlockManager.allocate, if_pos h]; rfl⟩

/--
**`append_slot`** appends a prefix of the free list to the table, long enough for `seq_len` tokens
if it answers `true`. For slots it does nothing: the one slot was there before.
-/
theorem appendSlot_spec (m : Manager) (q : Request) :
    ∃ blocks, (m.appendSlot q).2.2 = { q with blockTable := q.blockTable ++ blocks } ∧
      m.freeUnits = blocks ++ (m.appendSlot q).2.1.freeUnits ∧
      m.SameShape (m.appendSlot q).2.1 ∧ (m.appendSlot q).2.1.live = m.live ∧
      (m.appendSlot q).2.1.committed = m.committed ∧ (m.paged = false → blocks = []) ∧
      ((m.appendSlot q).1 = true → m.paged = true →
        m.unitsNeeded q.seqLen ≤ (q.blockTable ++ blocks).length) ∧
      (blocks ≠ [] → ((q.blockTable ++ blocks).length : Int) ≤ m.unitsNeeded q.seqLen) ∧
      ((m.appendSlot q).1 = false → m.paged = true ∧ (m.appendSlot q).2.1.freeUnits = [] ∧
        ((q.blockTable ++ blocks).length : Int) < m.unitsNeeded q.seqLen) := by
  cases m with
  | slot m =>
    exact ⟨[], by simp [appendSlot, SlotManager.appendSlot], rfl, SameShape.refl _, rfl, rfl,
      fun _ => rfl, nofun, fun h => absurd rfl h, nofun⟩
  | block m =>
    obtain ⟨blocks, ht, hf, htrue, hfalse⟩ :=
      BlockManager.appendLoop_spec (m.blocksNeeded q.seqLen) m.freeBlocks q.blockTable
    refine ⟨blocks, ?_, hf, ⟨rfl, rfl, rfl, rfl, rfl⟩, rfl, rfl, nofun, fun hok _ => (htrue hok).1,
      ?_, fun hno => ⟨rfl, hfalse hno⟩⟩
    · show { q with blockTable := _ } = _
      rw [ht]
    · intro hne
      show _ ≤ m.blocksNeeded q.seqLen
      cases hok : (BlockManager.appendLoop (m.blocksNeeded q.seqLen) q.blockTable m.freeBlocks).1 with
      | true => exact ((htrue hok).2 hne).ge
      | false => exact (hfalse hok).2.le

/-- `append_slot` finds room when the free list covers what the table lacks. -/
theorem appendSlot_isTrue {m : Manager} {q : Request}
    (h : m.unitsNeeded q.seqLen ≤ q.blockTable.length + m.freeUnits.length) :
    (m.appendSlot q).1 = true := by
  obtain ⟨blocks, -, hf, -, -, -, -, -, -, hfalse⟩ := m.appendSlot_spec q
  by_contra hno
  obtain ⟨-, hnil, hlt⟩ := hfalse (by simpa using hno)
  rw [hf, hnil] at h
  simp only [List.length_append, List.length_nil] at h hlt
  omega

/-- **`free`** empties the table and forgets the request. -/
theorem free_ok {m m' : Manager} {q q' : Request} (h : m.free q = .ok (m', q')) :
    q' = { q with blockTable := [] } ∧ m.SameShape m' ∧ m'.live = m.live.pop q.requestId ∧
      (m.paged = true → m'.committed = m.committed.pop q.requestId) := by
  cases m with
  | slot m =>
    obtain ⟨⟨m₁, q₁⟩, hm, he⟩ := exists_of_map_ok h
    unfold SlotManager.free at hm
    split at hm
    · cases hm
    · cases hm
      cases he
      exact ⟨rfl, ⟨rfl, rfl, rfl, rfl, rfl⟩, rfl, nofun⟩
  | block m =>
    cases h
    exact ⟨rfl, ⟨rfl, rfl, rfl, rfl, rfl⟩, rfl, fun _ => rfl⟩

/-- The table goes back on the free list. A slot manager returns its first entry only, so there
the table must have one entry. -/
theorem free_freeUnits {m m' : Manager} {q q' : Request} (h : m.free q = .ok (m', q'))
    (hone : m.paged = false → q.blockTable.length = 1) :
    m'.freeUnits = q.blockTable ++ m.freeUnits := by
  cases m with
  | slot m =>
    obtain ⟨slot, ht⟩ := List.length_eq_one_iff.mp (hone rfl)
    obtain ⟨⟨m₁, q₁⟩, hm, he⟩ := exists_of_map_ok h
    simp only [SlotManager.free, ht] at hm
    cases hm
    cases he
    rw [ht]
    rfl
  | block m =>
    cases h
    rfl

theorem free_isOk {m : Manager} {q : Request}
    (hone : m.paged = false → q.blockTable.length = 1) : ∃ p, m.free q = .ok p := by
  cases m with
  | slot m =>
    obtain ⟨slot, ht⟩ := List.length_eq_one_iff.mp (hone rfl)
    exact ⟨_, by simp only [free, SlotManager.free, ht]; rfl⟩
  | block m => exact ⟨_, rfl⟩

/-! ## Admission -/

/-- Optimistic admission: the free list covers the request and a unit of headroom for each other
row. -/
theorem canAllocate_iff {m : Manager} {q : Request} {headroom : Nat} (hp : m.paged = true)
    (hr : m.reserves = false) :
    m.canAllocate q headroom = true ↔ m.unitsNeeded q.seqLen + headroom ≤ m.freeUnits.length := by
  cases m with
  | slot m => cases hp
  | block m =>
    have hr' : m.reserveMaxNew = false := hr
    simp [canAllocate, BlockManager.canAllocate, hr', unitsNeeded, freeUnits]

/-- Worst-case admission: what is committed and the request's worst case fit in the pool. -/
theorem canAllocate_reserve_iff {m : Manager} {q : Request} {headroom : Nat}
    (hr : m.reserves = true) :
    m.canAllocate q headroom = true ↔ m.committed.values.sum + m.worst q ≤ m.units := by
  cases m with
  | slot m => cases hr
  | block m =>
    have hr' : m.reserveMaxNew = true := hr
    simp only [canAllocate, BlockManager.canAllocate, hr', if_true, decide_eq_true_eq]
    exact Iff.rfl

theorem canAllocate_slot_iff {m : Manager} {q : Request} {headroom : Nat} (hp : m.paged = false) :
    m.canAllocate q headroom = true ↔ m.freeUnits ≠ [] := by
  cases m with
  | slot m =>
    simp [canAllocate, SlotManager.canAllocate, freeUnits, List.length_pos_iff]
  | block m => cases hp

/-- A request that fits the empty pool. -/
theorem worst_le_of_fitsEver {m : Manager} {promptLen : Nat} {maxNew : Int} (hp : m.paged = true)
    (h : m.fitsEver promptLen maxNew = true) : m.unitsNeeded (promptLen + maxNew) ≤ m.units := by
  cases m with
  | slot m => cases hp
  | block m => exact of_decide_eq_true h

theorem reserves_paged {m : Manager} (h : m.reserves = true) : m.paged = true := by
  cases m with
  | slot m => cases h
  | block m => rfl

end Manager

end LlmServe
