import LlmServe.Properties.FrontDoor
import LlmServe.Properties.ServerWorld

/-!
# The engine thread never dies

An exception in `step` ends the engine thread, and with it every request. With the model behind its
embedding table as the world, and clients that stay within what the handler does not check, there is
none: not from the allocator, not from the search for room, not from the pool and not from the table
(`server_never_raises`).
-/

namespace LlmServe

open Infra Point

variable {Hidden K V κ : Type} {M : Transformer Hidden K V} {clock : κ → Time × κ}
  {cfg : EngineConfig} {m : Manager} {w : RunnerState κ K V} {encode : Text → List Token}
  {acts : List ServerAction}

/-- Only a step can raise. -/
theorem advance_isOk {σ : Type} {env : Env σ} {l : EngineLoop σ}
    (hstep : l.pc = .work → ∃ s', l.sched.step env cfg = .ok s') :
    ∃ l', l.advance env cfg = .ok l' := by
  unfold EngineLoop.advance
  cases hpc : l.pc with
  | drain =>
    cases hin : l.inbox with
    | nil => exact ⟨_, rfl⟩
    | cons r rest => exact ⟨_, rfl⟩
  | work =>
    obtain ⟨s', hs'⟩ := hstep hpc
    dsimp only
    split
    · exact ⟨{ l with sched := s', pc := .top }, by rw [hs']; rfl⟩
    · exact ⟨_, rfl⟩
  | _ => exact ⟨_, rfl⟩

/--
**The engine thread never dies.** Whatever clients post (a positive limit, ids of the vocabulary,
each under an id of its own), however they disconnect, and however all this falls between the
actions of the engine thread: no step raises.
-/
theorem server_never_raises (hm : m.Serves cfg) (hM : M.InVocab)
    (hencode : ∀ text, ∀ tok ∈ encode text, InVocab tok) (hpool : w.pool.layout = m.layout)
    (hposted : Posted acts) :
    ∃ l, run (EngineLoop.serve encode (Env.ofRunner M clock) cfg) (.init cfg m w) acts = .ok l := by
  induction acts using List.reverseRecOn with
  | nil => exact ⟨_, rfl⟩
  | append_singleton acts a ih =>
    obtain ⟨l, hl⟩ := ih hposted.of_append
    obtain ⟨src, hclients⟩ := serve_clients hm.fresh hencode hposted.of_append hl
    have hact : ∃ l', l.serve encode (Env.ofRunner M clock) cfg a = .ok l' := by
      cases a with
      | generate body rid now => exact ⟨_, rfl⟩
      | cancel r => exact ⟨_, rfl⟩
      | stop => exact ⟨_, rfl⟩
      | advance =>
        refine advance_isOk fun hpc => ?_
        have hpoint : l.point = rest l.sched l.inbox := by
          simp [EngineLoop.point, EngineLoop.hand, hpc]
        have hreach := hclients.reach
        have hsourced := hclients.sourced
        rw [hpoint] at hreach hsourced
        exact ofRunner_neverRaises hm hM hpool src l.sched l.inbox hreach hsourced hclients.serving
    obtain ⟨l', hl'⟩ := hact
    exact ⟨l', by rw [run_snoc, hl]; exact hl'⟩

/-- Three clients in a pool too small for them, one of whom disconnects. -/
theorem server_never_raises_crowded :
    ∃ l, run (EngineLoop.serve (fun _ => []) (Env.ofRunner tiny tinyClock) { preemption := true })
        (.init { preemption := true } (.block (.new 4 1 Nat.one_pos false))
          (tinyWorld (.block (.new 4 1 Nat.one_pos false))))
        [.generate { promptTokenIds := some [1], maxNewTokens := 3 } "a" 0,
          .generate { promptTokenIds := some [2, 0], maxNewTokens := 2 } "b" 0, .advance,
          .generate { promptTokenIds := some [3, 3, 3, 3] } "c" 0, .cancel 1, .advance, .advance,
          .advance, .advance, .advance, .advance, .advance] = .ok l := by
  have hposted : Posted [.generate { promptTokenIds := some [1], maxNewTokens := 3 } "a" 0,
      .generate { promptTokenIds := some [2, 0], maxNewTokens := 2 } "b" 0, .advance,
      .generate { promptTokenIds := some [3, 3, 3, 3] } "c" 0, .cancel 1, .advance, .advance,
      .advance, .advance, .advance, .advance, .advance] := ⟨by decide, by decide, by decide⟩
  have hm : (Manager.block (.new 4 1 Nat.one_pos false)).Serves { preemption := true } :=
    ⟨Manager.fresh_block_new .., nofun, fun _ => rfl⟩
  have hpool : (tinyWorld (.block (.new 4 1 Nat.one_pos false))).pool.layout =
      (Manager.block (.new 4 1 Nat.one_pos false)).layout := rfl
  exact server_never_raises hm tiny_inVocab (fun _ _ htok => absurd htok List.not_mem_nil) hpool
    hposted

end LlmServe
