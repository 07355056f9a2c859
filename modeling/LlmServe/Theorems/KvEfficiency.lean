import LlmServe.Engine.NextToken
import LlmServe.Properties.Capacity
import LlmServe.Properties.Context
import LlmServe.Properties.Workload

/-!
# When KV efficiency is a fraction

`stats` divides all live tokens by the capacity that is handed out, but the newest token of a
request is not stored yet. A paged request whose newest token opens a block is one token over its
capacity until `append_slot` gives it that block; the others have the room left in their last one
(`BlockManager.mul_sub_eq`). The quotient is a fraction while that room makes up for it.
-/

namespace LlmServe

open Infra Point

variable {σ : Type} {env : Env σ} {cfg : EngineConfig} {m : Manager} {w : σ} {p : Point σ}

/-! ## Capacity -/

/-- Tokens that a slot or a block stores. -/
def Manager.unitTokens : Manager → Nat
  | slot m => m.maxLen
  | block m => m.blockSize

theorem BlockManager.blockSize_le {b b' : BlockManager}
    (h : b'.blocksNeeded b.blockSize = b.blocksNeeded b.blockSize) : b.blockSize ≤ b'.blockSize := by
  have h1 : b.blocksNeeded b.blockSize ≤ 1 := b.blocksNeeded_le_iff.mpr (Int.one_mul _).ge
  have h2 := b'.blocksNeeded_le_iff.mp (h.trans_le h1)
  omega

theorem Manager.SameShape.unitTokens {m' : Manager} (h : m.SameShape m') :
    m'.unitTokens = m.unitTokens := by
  cases m with
  | slot a =>
    cases m' with
    | slot a' =>
      -- `fits_ever` knows the length of a slot
      have hfits : ∀ n : Int, a'.fitsEver 0 n = a.fitsEver 0 n := fun n =>
        congrFun (congrFun h.fitsEver 0) n
      have h1 := hfits a.maxLen
      have h2 := hfits a'.maxLen
      simp only [SlotManager.fitsEver] at h1 h2
      have h1' : (a.maxLen : Int) ≤ a'.maxLen := by simpa using h1
      have h2' : (a'.maxLen : Int) ≤ a.maxLen := by simpa using h2.symm
      show a'.maxLen = a.maxLen
      omega
    | block b => cases h.paged
  | block b =>
    cases m' with
    | slot a => cases h.paged
    | block b' =>
      have hneed : ∀ n, b'.blocksNeeded n = b.blocksNeeded n := congrFun h.unitsNeeded
      exact le_antisymm (BlockManager.blockSize_le (hneed _).symm) (BlockManager.blockSize_le (hneed _))

theorem stats_used (m : Manager) (heap : Ref → Request) :
    (m.stats heap).used = m.units - m.freeUnits.length := by
  cases m <;> rfl

theorem stats_capacityTokens (m : Manager) (heap : Ref → Request) :
    (m.stats heap).capacityTokens =
      (if m.paged then (m.stats heap).used else m.live.entries.length) * m.unitTokens := by
  cases m <;> rfl

/-! ## One table -/

/-- What a table stores beyond its request's tokens: the room in the last block, or one too few. -/
theorem BlockManager.mul_sub_eq (b : BlockManager) {n k : Int} (hle : k ≤ b.blocksNeeded n)
    (hstored : b.blocksNeeded (n - 1) ≤ k) :
    k * b.blockSize - n = if k < b.blocksNeeded n then -1 else -n % b.blockSize := by
  split_ifs with h
  · -- the tokens before the newest fill the table to the last cell
    have hover : ¬n ≤ k * b.blockSize := fun hn => not_le.mpr h (b.blocksNeeded_le_iff.mpr hn)
    have hold := b.blocksNeeded_le_iff.mp hstored
    omega
  · obtain rfl : k = b.blocksNeeded n := by omega
    rw [Int.emod_def, BlockManager.blocksNeeded]
    ring

theorem Good.room_eq (h : Good cfg m p) (hp : m.paged = true) {r : Ref} (hr : r ∈ p.held) :
    ((p.sched.heap r).blockTable.length : Int) * m.unitTokens - (p.sched.heap r).seqLen =
      if p.sched.needsBlock r then -1 else -((p.sched.heap r).seqLen : Int) % m.unitTokens := by
  have hheld := h.holds_of_held hr
  have hneed : p.sched.needsBlock r = true ↔
      ((p.sched.heap r).blockTable.length : Int) < m.unitsNeeded (p.sched.heap r).seqLen := by
    simp [Scheduler.needsBlock, h.shape.paged, h.shape.unitsNeeded, hp]
  simp only [hneed]
  cases m with
  | slot m => cases hp
  | block b => exact b.mul_sub_eq ((h.facts r).table.le hheld) ((h.facts r).table.stored hheld)

/-! ## All tables -/

theorem sum_ite_neg_one {α : Type} (P : α → Bool) (g : α → Int) : ∀ l : List α,
    (l.map fun a => if P a then -1 else g a).sum = ((l.filter (!P ·)).map g).sum - l.countP P
  | [] => rfl
  | a :: l => by
    have ih := sum_ite_neg_one P g l
    cases hP : P a with
    | true =>
      simp [hP, ih]
      omega
    | false =>
      simp [hP, ih]
      omega

/-- The holders without a block for their newest token are no more than the cells left in the last
blocks of the others. -/
def Point.NewestFit (m : Manager) (p : Point σ) : Prop :=
  (p.held.countP p.sched.needsBlock : Int) ≤ ((p.held.filter fun r => !p.sched.needsBlock r).map
    fun r => -((p.sched.heap r).seqLen : Int) % m.unitTokens).sum

instance (m : Manager) (p : Point σ) : Decidable (p.NewestFit m) :=
  inferInstanceAs (Decidable (_ ≤ _))

def Point.stats (p : Point σ) : Stats := p.sched.manager.stats p.sched.heap

theorem Point.used_le (p : Point σ) : p.stats.used ≤ p.stats.total := by
  unfold Point.stats
  rw [stats_used, stats_total]
  omega

/-- Paged: used blocks are the blocks of the tables. -/
theorem live_le_capacity_iff (h : Good cfg m p) (ha : Accounted m p) (hp : m.paged = true) :
    p.stats.liveTokens ≤ p.stats.capacityTokens ↔ p.NewestFit m := by
  have hused : p.stats.used = (p.held.map fun r => ((p.sched.heap r).blockTable.length : Int)).sum := by
    have hsum := h.owned.length_sum
    unfold Point.stats
    rw [stats_used]
    omega
  have hcap : p.stats.capacityTokens =
      (p.held.map fun r => ((p.sched.heap r).blockTable.length : Int) * m.unitTokens).sum := by
    rw [List.sum_map_mul_right, ← hused]
    unfold Point.stats
    rw [stats_capacityTokens, h.shape.paged, hp, h.shape.unitTokens, if_pos rfl]
  have hlive : p.stats.liveTokens = (p.held.map fun r => ((p.sched.heap r).seqLen : Int)).sum :=
    ha.live_tokens
  have hdiff : p.stats.capacityTokens = p.stats.liveTokens +
      (p.held.map fun r => if p.sched.needsBlock r then -1
        else -((p.sched.heap r).seqLen : Int) % m.unitTokens).sum := by
    rw [hcap, hlive, ← List.sum_map_add]
    refine congrArg List.sum (List.map_congr_left fun r hr => ?_)
    have hroom := h.room_eq hp hr
    omega
  rw [sum_ite_neg_one] at hdiff
  unfold NewestFit
  omega

/-- Contiguous: a slot stores the whole context. -/
theorem live_le_slots (h : Good cfg m p) (ha : Accounted m p) (hp : m.paged = false)
    (hlen : m.unitTokens = maxContext) (hle : ∀ r ∈ p.held, (p.sched.heap r).seqLen ≤ maxContext) :
    p.stats.liveTokens ≤ p.stats.capacityTokens := by
  have hlive : p.stats.liveTokens = (p.held.map fun r => ((p.sched.heap r).seqLen : Int)).sum :=
    ha.live_tokens
  have hcap : p.stats.capacityTokens = (p.held.length : Int) * maxContext := by
    have hentries : p.sched.manager.live.entries.length = p.held.length := by
      rw [ha.live.length_eq, liveEntries, List.length_map]
    unfold Point.stats
    rw [stats_capacityTokens, h.shape.paged, hp, h.shape.unitTokens, hlen, hentries]
    rfl
  rw [hlive, hcap]
  refine (List.sum_le_card_nsmul _ (maxContext : Int) fun x hx => ?_).trans_eq ?_
  · obtain ⟨r, hr, rfl⟩ := List.mem_map.mp hx
    exact_mod_cast hle r hr
  · rw [List.length_map, nsmul_eq_mul]

theorem recordStep_kvEffSteps {s s' : Scheduler σ} {occupied : Nat}
    (h : s.recordStep env occupied = .ok s') :
    s'.metrics.kvEffSteps = s.metrics.kvEffSteps + (s.manager.stats s.heap).efficiency := by
  rw [Scheduler.recordStep_ok h]
  rfl

theorem stats_liveTokens_nonneg (m : Manager) (heap : Ref → Request) :
    0 ≤ (m.stats heap).liveTokens := by
  have hsum : 0 ≤ liveTokens heap m.live := by
    refine List.sum_nonneg fun x hx => ?_
    obtain ⟨r, -, rfl⟩ := List.mem_map.mp hx
    exact Int.natCast_nonneg _
  cases m <;> exact hsum

theorem Stats.efficiency_le_one {st : Stats} (h0 : 0 ≤ st.liveTokens)
    (h : st.liveTokens ≤ st.capacityTokens) : st.efficiency ≤ 1 := by
  unfold efficiency
  split_ifs with hne
  · have hpos : (0 : Rat) < st.capacityTokens := by exact_mod_cast (h0.trans h).lt_of_ne hne.symm
    rw [div_le_one hpos]
    exact_mod_cast h
  · exact zero_le_one

/--
**When KV efficiency is a fraction.** At every point of a run with distinct ids no more is used
than there is, and the live tokens fit the capacity: always in slots, and in blocks exactly if the
last blocks have room for the newest tokens that have no block yet. Then the efficiency is at most
one.
-/
theorem kv_efficiency_iff (hm : m.Fresh) (hslots : m.paged = false → m.unitTokens = maxContext)
    {acts : List Action} {s : Scheduler σ}
    (hprompt : ∀ n ∈ submitted acts, n.promptTokenIds.length ≤ 1023)
    (hids : ((submitted acts).map NewRequest.requestId).Nodup)
    (hrun : run (Scheduler.act env cfg) (.init cfg m w) acts = .ok s) (hp : Inside env cfg s p) :
    (p.stats.used ≤ p.stats.total ∧ p.stats.liveTokens ≤ p.stats.capacityTokens ↔
      (m.paged = true → p.NewestFit m)) ∧
    ((m.paged = true → p.NewestFit m) → p.stats.efficiency ≤ 1) := by
  have hreach := (run_reach hm hrun).trans hp.reach
  have hgood : Good cfg m p := Good.ops (.init hm w) hreach
  have hacc := hp.accounted hm hrun hids
  have hiff : p.stats.used ≤ p.stats.total ∧ p.stats.liveTokens ≤ p.stats.capacityTokens ↔
      (m.paged = true → p.NewestFit m) := by
    cases hpaged : m.paged with
    | true => simp [p.used_le, live_le_capacity_iff hgood hacc hpaged]
    | false =>
      have hlive := live_le_slots hgood hacc hpaged (hslots hpaged) fun r hr => by
        have hlt := hgood.placed.lt_next r (mem_placed_of_held hr)
        obtain ⟨n, hn, hev⟩ := hp.request hm hrun hlt
        refine seqLen_le_maxContext hm hreach hlt ?_
        rw [hev.promptTokenIds]
        exact hprompt n hn
      simp [p.used_le, hlive]
  exact ⟨hiff, fun h => Stats.efficiency_le_one (stats_liveTokens_nonneg ..) (hiff.mpr h).2⟩

/-- Blocks of four: after a step the newest token of `"a"` opens a block, and the last block of
`"b"` has room. -/
theorem kv_efficiency_iff_room :
    ∃ s, run (Scheduler.act (Env.ofNext fun toks => toks.length) {})
        (.init {} (.block (.new 6 4 (by decide) true)) .start)
        [.submit { requestId := "a", promptTokenIds := [1, 2, 3], maxNewTokens := 4 },
          .submit { requestId := "b", promptTokenIds := [1], maxNewTokens := 4 }, .step] = .ok s ∧
      ((rest s []).stats.used ≤ (rest s []).stats.total ∧
        (rest s []).stats.liveTokens ≤ (rest s []).stats.capacityTokens) ∧
      (rest s []).held.countP s.needsBlock = 1 := by
  obtain ⟨s, hs, hfit, hone⟩ : ∃ s, run (Scheduler.act (Env.ofNext fun toks => toks.length) {})
        (.init {} (.block (.new 6 4 (by decide) true)) .start)
        [.submit { requestId := "a", promptTokenIds := [1, 2, 3], maxNewTokens := 4 },
          .submit { requestId := "b", promptTokenIds := [1], maxNewTokens := 4 }, .step] = .ok s ∧
      (rest s []).NewestFit (.block (.new 6 4 (by decide) true)) ∧
      (rest s []).held.countP s.needsBlock = 1 := by decide +kernel
  exact ⟨s, hs, (kv_efficiency_iff (Manager.fresh_block_new ..) nofun (by decide) (by decide) hs
    (.refl s)).1.mpr fun _ => hfit, hone⟩

/-- Blocks of one token: in the decode step `"a"`, finished by its prefill, has two tokens and one
block, `"b"` two and two. The step records `4 / 3`. -/
theorem kv_efficiency_over_one :
    ∃ s, run (Scheduler.act (Env.ofNext fun toks => toks.length) {})
        (.init {} (.block (.new 8 1 Nat.one_pos true)) .start)
        [.submit { requestId := "a", promptTokenIds := [1], maxNewTokens := 1 },
          .submit { requestId := "b", promptTokenIds := [1], maxNewTokens := 4 }, .step] = .ok s ∧
      s.metrics.steps = 1 ∧ s.metrics.kvEffSteps = 4 / 3 ∧
      ¬(rest s []).stats.liveTokens ≤ (rest s []).stats.capacityTokens ∧
      1 < (rest s []).stats.efficiency := by
  decide +kernel

end LlmServe
