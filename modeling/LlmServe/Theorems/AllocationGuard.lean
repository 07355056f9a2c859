import LlmServe.Engine.Generate
import LlmServe.Engine.NextToken
import LlmServe.Properties.Workload

/-!
# When `can_allocate` guards `allocate`

By the free list `can_allocate` asks for the blocks that `allocate` is about to take. By the worst
case it compares promises, and `max_new_tokens` may be negative: such a request promises less than
its prompt takes. While every promise covers its prompt no table outgrows it (`tablesFit_of_reach`),
also where a prefill emits a token over the limit.
-/

namespace LlmServe

open Infra Point

variable {σ : Type} {env : Env σ} {cfg : EngineConfig} {adm : Point σ → Ref → Prop} {m : Manager}
  {w : σ} {r : Ref} {v v' : View} {p : Point σ}

/-! ## Tables and promises -/

/-- A table has the blocks of the prompt, or no more than the worst case. -/
def Sized (m : Manager) (v : View) : Prop :=
  (v.req.blockTable.length : Int) ≤
    max (m.unitsNeeded v.req.promptTokenIds.length) (m.worst v.req)

theorem sized_of_nil (m : Manager) {v : View} (h : v.req.blockTable = []) : Sized m v := by
  unfold Sized
  rw [h]
  exact (m.unitsNeeded_nonneg (Int.natCast_nonneg _)).trans (le_max_left _ _)

theorem sized_move (hmv : Move cfg m r v v') (hfacts : Facts m v) (h : Sized m v) :
    Sized m v' := by
  cases hmv with
  | create n hphase => exact sized_of_nil m rfl
  | submit hphase =>
    -- the limit changes here, before the request has a table
    exact sized_of_nil m (hfacts.table.nil (by simp [Phase.Holds, hphase]))
  | leave hphase hdue hfin => exact sized_of_nil m rfl
  | preempt hphase hdue hopen hpre => exact sized_of_nil m rfl
  | admitHead blocks seq hphase hlen =>
    -- an open request has its prompt only, or is still below its limit
    have hopen := hfacts.ending.early_open (by simp [hphase]) (by simp [hphase]) (by simp [hphase])
    exact hlen.trans_le (hfacts.ending.need_le hopen)
  | grow blocks hphase hdue hopen hslot hlen =>
    by_cases hb : blocks = []
    · subst hb
      simpa [Sized] using h
    · exact (hlen hb).trans (hfacts.ending.need_le hopen)
  | emit now tok hdue =>
    unfold Sized Manager.worst
    rw [Request.emit_blockTable, Request.emit_promptTokenIds, Request.emit_maxNewTokens]
    exact h
  | _ => exact h

theorem tablesFit_of_reach (hm : m.Fresh) (hreach : Ops env cfg adm (rest (.init cfg m w) []) p)
    (hcov : Covering m p) : TablesFit m p := by
  have hgood : Good cfg m p := Good.ops (.init hm w) hreach
  intro r hr
  have hsized : Sized m (p.view r) :=
    view_of_reach hm hreach r (fun _ _ => sized_move) (sized_of_nil m rfl)
  exact hsized.trans (max_le (hcov r (hgood.submitted_of_mem (Or.inr hr))) le_rfl)

/-! ## Requests that are let in -/

/-- What `/generate` checks before `loop.submit`. -/
structure NewRequest.Accepted (m : Manager) (n : NewRequest) : Prop where
  prompt_pos : 1 ≤ n.promptTokenIds.length
  prompt_le : n.promptTokenIds.length ≤ 1023
  fits : m.fitsEver n.promptTokenIds.length n.capped = true

theorem GenerateIn.toRequest_accepted {encode : Text → List Token} {body : GenerateIn}
    {rid : String} {now : Time} {sink : Nat} {n : NewRequest}
    (h : body.toRequest encode m rid now sink = .ok n) : n.Accepted m := by
  obtain ⟨ids, -, h⟩ := exists_of_bind_ok h
  split at h
  · cases h
  · next hlen =>
    split at h
    · cases h
    · next hfits =>
      cases h
      obtain ⟨hpos, hlt⟩ := not_not.mp hlen
      exact ⟨hpos, Nat.le_of_lt_succ hlt, (Bool.not_eq_false _).mp hfits⟩

/-- The blocks of prompt and new tokens together are no fewer than those of the prompt. -/
def NewRequest.Covers (blockSize : Nat) (n : NewRequest) : Prop :=
  -(-(n.promptTokenIds.length : Int) / blockSize) ≤
    -(-(n.promptTokenIds.length + n.capped) / blockSize)

/-- A limit that is not negative is enough. -/
theorem NewRequest.covers_of_nonneg {blockSize : Nat} (hbs : 0 < blockSize) {n : NewRequest}
    (hlen : n.promptTokenIds.length ≤ 1023) (h : 0 ≤ n.maxNewTokens) : n.Covers blockSize := by
  refine (BlockManager.new 0 blockSize hbs true).blocksNeeded_mono ?_
  simp only [NewRequest.capped, maxContext]
  omega

theorem Inside.covering (hm : m.Fresh) {acts : List Action} {s : Scheduler σ}
    (hrun : run (Scheduler.act env cfg) (.init cfg m w) acts = .ok s) (hp : Inside env cfg s p)
    (hcov : ∀ n ∈ submitted acts, m.unitsNeeded n.promptTokenIds.length ≤
      m.unitsNeeded (n.promptTokenIds.length + n.capped)) : Covering m p := by
  intro r hr
  obtain ⟨n, hn, hev⟩ := hp.request hm hrun hr.1
  rw [Manager.worst, hev.promptTokenIds, hev.maxNewTokens]
  exact hcov n hn

/-! ## The guard -/

/-- Where `can_allocate` answers `true`, `allocate` finds its blocks. -/
def GuardSound (p : Point σ) : Prop := ∀ r ∈ p.sched.waiting, ∀ headroom,
  p.sched.manager.canAllocate (p.sched.heap r) headroom = true →
    p.sched.manager.unitsNeeded (p.sched.heap r).seqLen ≤ p.sched.manager.freeUnits.length

/-- The guard is sound in every pool of blocks of one size, at every point of every run over
requests of the kind `K` with distinct ids. -/
def GuardSoundOver (env : Env σ) (cfg : EngineConfig) (w : σ) {blockSize : Nat}
    (hbs : 0 < blockSize) (reserve : Bool) (K : NewRequest → Prop) : Prop :=
  ∀ (numBlocks : Nat) (acts : List Action) (s : Scheduler σ) (p : Point σ),
    run (Scheduler.act env cfg)
        (.init cfg (.block (.new numBlocks blockSize hbs reserve)) w) acts = .ok s →
    (∀ n ∈ submitted acts, K n ∧ n.Accepted (.block (.new numBlocks blockSize hbs reserve))) →
    ((submitted acts).map NewRequest.requestId).Nodup → Inside env cfg s p → GuardSound p

theorem guardSound_of_covering (hm : m.Fresh) {acts : List Action} {s : Scheduler σ}
    (hrun : run (Scheduler.act env cfg) (.init cfg m w) acts = .ok s)
    (hids : ((submitted acts).map NewRequest.requestId).Nodup) (hp : Inside env cfg s p)
    (hcov : m.reserves = true → Covering m p) : GuardSound p := by
  have hstart : Good cfg m (rest (.init cfg m w : Scheduler σ) []) := .init hm w
  have hreach := (run_reach hm hrun).trans hp.reach
  intro r hr headroom hcan
  refine room_of_canAllocate (hstart.ops hreach) (fun hres => ?_) hr hcan
  exact ⟨hp.accounted hm hrun hids, hcov hres, tablesFit_of_reach hm hreach (hcov hres)⟩

/-- Alone in a pool one block short of its prompt, a request that promises less is let in. -/
theorem not_guardSound_submitted {numBlocks blockSize : Nat} {hbs : 0 < blockSize} {n : NewRequest}
    (hworst : (BlockManager.new numBlocks blockSize hbs true).blocksNeeded
      (n.promptTokenIds.length + n.capped) ≤ numBlocks)
    (hneed : (numBlocks : Int) <
      (BlockManager.new numBlocks blockSize hbs true).blocksNeeded n.promptTokenIds.length) :
    ¬GuardSound (rest ((Scheduler.init cfg (.block (.new numBlocks blockSize hbs true)) w).accept n)
      []) := by
  have hheap : ((Scheduler.init cfg (.block (.new numBlocks blockSize hbs true)) w).accept n).heap 0 =
      n.toRequest.submitted := by
    rw [accept_heap]
    exact Function.update_self ..
  intro hsound
  have hcan : (BlockManager.new numBlocks blockSize hbs true).canAllocate
      (((Scheduler.init cfg (.block (.new numBlocks blockSize hbs true)) w).accept n).heap 0) 0 =
        true := by
    rw [hheap]
    -- nothing is committed yet
    exact decide_eq_true ((Int.zero_add _).trans_le hworst)
  have hle := hsound 0 List.mem_cons_self 0 hcan
  rw [rest, hheap] at hle
  have hfree : ((List.range numBlocks).length : Int) = numBlocks := by rw [List.length_range]
  exact absurd (hle.trans_eq hfree) (not_le.mpr hneed)

/--
**When `can_allocate` is a sound guard for `allocate`.** With requests of one kind the guard is
sound in every pool and every run exactly if admission is by the free list or no request of the
kind promises fewer blocks than its prompt takes.
-/
theorem can_allocate_sound_iff {blockSize : Nat} (hbs : 0 < blockSize) (reserve : Bool)
    (K : NewRequest → Prop) : GuardSoundOver env cfg w hbs reserve K ↔
      (reserve = true → ∀ n, K n → 1 ≤ n.promptTokenIds.length → n.promptTokenIds.length ≤ 1023 →
        n.Covers blockSize) := by
  constructor
  · rintro hsound rfl n hK hpos hle
    by_contra hno
    -- a pool one block short of the prompt
    have hblocks := (BlockManager.new 0 blockSize hbs true).blocksNeeded_pos
      (n := n.promptTokenIds.length) (by omega)
    obtain ⟨k, hk⟩ := Int.eq_ofNat_of_zero_le hblocks.le
    have hneed : (((k - 1 : Nat) : Int)) <
        (BlockManager.new (k - 1) blockSize hbs true).blocksNeeded n.promptTokenIds.length := by
      change _ < (BlockManager.new 0 blockSize hbs true).blocksNeeded n.promptTokenIds.length
      omega
    have hworst : (BlockManager.new (k - 1) blockSize hbs true).blocksNeeded
        (n.promptTokenIds.length + n.capped) ≤ ((k - 1 : Nat) : Int) := by
      have hlt := not_le.mp hno
      change (BlockManager.new (k - 1) blockSize hbs true).blocksNeeded
          (n.promptTokenIds.length + n.capped) <
        (BlockManager.new 0 blockSize hbs true).blocksNeeded n.promptTokenIds.length at hlt
      omega
    refine not_guardSound_submitted hworst hneed
      (hsound (k - 1) [.submit n] _ _ rfl (fun n' hn' => ?_) (by simp [submitted]) (.refl _))
    obtain rfl : n' = n := by simpa [submitted] using hn'
    exact ⟨hK, hpos, hle, decide_eq_true hworst⟩
  · intro hcov numBlocks acts s p hrun hacc hids hp
    have hm := Manager.fresh_block_new numBlocks blockSize hbs reserve
    refine guardSound_of_covering hm hrun hids hp fun hres => hp.covering hm hrun fun n hn => ?_
    obtain ⟨hK, hn'⟩ := hacc n hn
    exact hcov hres n hK hn'.prompt_pos hn'.prompt_le

/-- Limits that are not negative. -/
theorem can_allocate_sound_iff_nonneg :
    GuardSoundOver (Env.ofNext fun toks => toks.length) {} .start (show 0 < 16 by decide) true
      (fun n => 0 ≤ n.maxNewTokens) :=
  (can_allocate_sound_iff (by decide) true _).mpr fun _ _ h _ hlen =>
    NewRequest.covers_of_nonneg (by decide) hlen h

/-- A prompt of three tokens and a limit of `-2` promise one block of two tokens. It is all the
pool has, `can_allocate` answers `true`, and `allocate` raises. -/
theorem can_allocate_lets_in_too_much :
    ∃ s, run (Scheduler.act (Env.ofNext fun toks => toks.length) {})
        (.init {} (.block (.new 1 2 Nat.two_pos true)) .start)
        [.submit { requestId := "a", promptTokenIds := [1, 2, 3], maxNewTokens := -2 }] = .ok s ∧
      (BlockManager.new 1 2 Nat.two_pos true).fitsEver 3 (-2) = true ∧
      s.manager.canAllocate (s.heap 0) 0 = true ∧
      ¬s.manager.unitsNeeded (s.heap 0).seqLen ≤ s.manager.freeUnits.length ∧
      s.step (Env.ofNext fun toks => toks.length) {} =
        .error (.assertionError "allocate() called without can_allocate()") := by
  decide +kernel

end LlmServe
