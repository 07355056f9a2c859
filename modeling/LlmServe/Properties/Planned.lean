import LlmServe.Bench.Plan
import LlmServe.Engine.Body
import LlmServe.Properties.LineReading

/-!
# What the load generator asks for

Every request of a load test fits the context with room to spare, and its ids are in the vocabulary
(`Sized`). The server reads its body as it was meant (`read_body`).
-/

namespace LlmServe.Bench

open Infra

/-! ## Sizes -/

/-- It asks for a token at least, and prompt and answer fit the context together. -/
structure Planned.Sized (p : Planned) : Prop where
  prompt : 1 ≤ p.prompt.length
  maxNew : 1 ≤ p.maxNew
  fits : p.prompt.length + p.maxNew ≤ 1024

section

variable {ρ : Type} (rng : Rand ρ) {w : Workload} {rate duration : Rat}

theorem length_randomPrompt : ∀ (n : Nat) (s : ρ), (randomPrompt rng s n).1.length = n
  | 0, _ => rfl
  | n + 1, s => congrArg (· + 1) (length_randomPrompt n (rng.intn (vocab - 1) s).2)

theorem lognormal_bounds (s : ρ) (median sigma : Rat) {lo hi : Int} (h : lo ≤ hi) :
    lo ≤ (lognormal rng s median sigma lo hi).1 ∧ (lognormal rng s median sigma lo hi).1 ≤ hi := by
  unfold lognormal
  dsimp only
  split <;> split <;> omega

/-- Prompts and answers of these workloads are in their bounds. -/
structure Workload.Bounded (w : Workload) : Prop where
  prompt : w.promptFixed = 0 → 1 ≤ w.promptLo ∧ w.promptLo ≤ w.promptHi
  out : w.promptFixed = 0 → 1 ≤ w.outLo ∧ w.outLo ≤ w.outHi
  fixed : w.promptFixed ≠ 0 → 1 ≤ w.promptFixed ∧ 1 ≤ w.outFixed
  fits : if w.promptFixed = 0 then w.promptHi + w.outHi ≤ 1024
    else w.promptFixed + w.outFixed ≤ 1024

theorem workloads_bounded : ∀ nw ∈ workloads, nw.2.Bounded := by
  intro nw hnw
  simp only [workloads, List.mem_cons, List.not_mem_nil, or_false] at hnw
  rcases hnw with rfl | rfl | rfl <;> constructor <;> decide

theorem lengths_bounds (hw : w.Bounded) (s : ρ) :
    1 ≤ (lengths rng w s).1.1 ∧ 1 ≤ (lengths rng w s).1.2 ∧
      (lengths rng w s).1.1 + (lengths rng w s).1.2 ≤ 1024 := by
  have hfits := hw.fits
  unfold lengths
  by_cases hfixed : w.promptFixed = 0
  · obtain ⟨hp, hple⟩ := hw.prompt hfixed
    obtain ⟨ho, hole⟩ := hw.out hfixed
    rw [if_pos hfixed] at hfits ⊢
    have hpl := lognormal_bounds rng s w.promptMedian w.promptSigma hple
    have hol := lognormal_bounds rng
      (lognormal rng s w.promptMedian w.promptSigma w.promptLo w.promptHi).2
      w.outMedian w.outSigma hole
    dsimp only
    omega
  · obtain ⟨hp, ho⟩ := hw.fixed hfixed
    rw [if_neg hfixed] at hfits ⊢
    dsimp only
    omega

theorem planFrom_sized (hw : w.Bounded) : ∀ (fuel id : Nat) (t : Rat) (s : ρ) {out : List Planned},
    planFrom rng w rate duration fuel id t s = some out → ∀ p ∈ out, p.Sized
  | fuel + 1, id, t, s, out, h => by
    rw [planFrom] at h
    dsimp only at h
    split at h
    · cases h
      exact List.forall_mem_nil _
    · obtain ⟨rest, hrest, rfl⟩ := Option.map_eq_some_iff.mp h
      have ih := planFrom_sized hw fuel _ _ _ hrest
      obtain ⟨hp, ho, hle⟩ := lengths_bounds rng hw (rng.expFloat64 s).2
      intro p hmem
      rcases List.mem_cons.mp hmem with rfl | hmem
      · have hlen := length_randomPrompt rng (lengths rng w (rng.expFloat64 s).2).1.1.toNat
          (lengths rng w (rng.expFloat64 s).2).2
        refine ⟨?_, ho, ?_⟩ <;> dsimp only <;> omega
      · exact ih p hmem

/-- **Every request of a load test is sized**, the injected one too. -/
theorem sized_of_planned {fuel : Nat} {name : String} (hw : (name, w) ∈ workloads) {seed wrng : ρ}
    {planned : List Planned} (hplan : plan rng fuel w seed rate duration = some planned)
    {injectAt : Rat} {injectPrompt : Nat} (hprompt : 1 ≤ injectPrompt ∧ injectPrompt ≤ 1008) :
    ∀ p ∈ inject rng planned injectAt injectPrompt wrng, p.Sized := by
  have hsized := planFrom_sized rng (workloads_bounded _ hw) fuel 0 0 seed hplan
  intro p hp
  unfold inject at hp
  split at hp
  · rcases List.mem_append.mp hp with hp | hp
    · exact hsized p hp
    · obtain rfl := List.mem_singleton.mp hp
      have hlen := length_randomPrompt rng injectPrompt wrng
      refine ⟨?_, ?_, ?_⟩ <;> dsimp only <;> omega
  · exact hsized p hp

end

/-! ## The body -/

/-- What the body asks for. -/
def Planned.asked (p : Planned) : GenerateIn :=
  { promptTokenIds := some p.prompt, maxNewTokens := p.maxNew, ignoreEos := true, stream := true }

/-- A member of the body, as it is written and as it is read. -/
def bodyMember (key : String) (w : Text) (v : JsonText.Value) : Text × Text × JsonText.Value :=
  ('"' :: key.toList ++ ['"', ':'] ++ w, key.toList, v)

def Planned.bodyMembers (p : Planned) : List (Text × Text × JsonText.Value) :=
  [bodyMember "ignore_eos" "true".toList (.bool true),
    bodyMember "max_new_tokens" (dumpsInt p.maxNew) (.int p.maxNew),
    bodyMember "prompt_token_ids" ('[' :: [','].intercalate (p.prompt.map dumpsInt) ++ [']'])
      (.arr (p.prompt.map .int)),
    bodyMember "stream" "true".toList (.bool true)]

theorem body_eq (p : Planned) :
    p.body = '\x7b' :: ([','].intercalate (p.bodyMembers.map Prod.fst) ++ ['\x7d']) := rfl

theorem element_bodyMember {key : String} {w : Text} {v : JsonText.Value}
    (hkey : ∀ c ∈ key.toList, c ≠ '"' ∧ c ≠ '\\' ∧ 0x20 ≤ c.toNat)
    (hread : (JsonText.value 1).Reads JsonText.Stops w v)
    (hw : ∃ c rest, w = c :: rest ∧ JsonText.isSpace c = false) :
    JsonText.Element (JsonText.member (JsonText.value 1)) '\x7d' (bodyMember key w v).1
      (bodyMember key w v).2 := by
  have h := JsonText.element_member (List.forall_mem_nil _) (JsonText.spells_plain hkey) hread hw
  simpa [bodyMember] using h

theorem reads_ids (ids : List Token) : (JsonText.value 1).Reads JsonText.Stops
    ('[' :: [','].intercalate (ids.map dumpsInt) ++ [']']) (.arr (ids.map .int)) := by
  have hids : ∀ i ∈ ids.map fun t => (dumpsInt t, JsonText.Value.int t),
      JsonText.Element (JsonText.value 0) ']' i.1 i.2 := by
    intro i hi
    obtain ⟨t, -, rfl⟩ := List.mem_map.mp hi
    exact ⟨reads_dumps (.int t), starts_dumps (.int t)⟩
  have h : (JsonText.value 1).Reads JsonText.Stops _ _ :=
    JsonText.reads_array (List.forall_mem_nil _) hids
  rw [List.map_map, List.map_map] at h
  exact h

theorem element_body (p : Planned) : ∀ i ∈ p.bodyMembers,
    JsonText.Element (JsonText.member (JsonText.value 1)) '\x7d' i.1 i.2 := by
  have htrue : (JsonText.value 1).Reads JsonText.Stops "true".toList (.bool true) :=
    JsonText.reads_bool true
  have hstarts : ∃ c rest, "true".toList = c :: rest ∧ JsonText.isSpace c = false :=
    ⟨'t', "rue".toList, rfl, by decide⟩
  obtain ⟨c, rest, hint, hc, -⟩ := starts_dumps (.int p.maxNew)
  intro i hi
  simp only [Planned.bodyMembers, List.mem_cons, List.not_mem_nil, or_false] at hi
  rcases hi with rfl | rfl | rfl | rfl
  · exact element_bodyMember (by simp) htrue hstarts
  · exact element_bodyMember (by simp) (reads_dumps (.int p.maxNew)) ⟨c, rest, hint, hc⟩
  · exact element_bodyMember (by simp) (reads_ids p.prompt) ⟨'[', _, rfl, by decide⟩
  · exact element_bodyMember (by simp) htrue hstarts

theorem parse_body (p : Planned) :
    JsonText.parse 2 p.body = some (.obj (p.bodyMembers.map Prod.snd)) := by
  have hread : (JsonText.value 2).Reads (fun _ => True) _ _ :=
    JsonText.reads_object (List.forall_mem_nil _) (element_body p)
  have hrun := hread [] trivial
  rw [List.append_nil, ← body_eq] at hrun
  exact JsonText.parse_some (body_eq p) (by decide) hrun

theorem mapM_readId : ∀ ids : List Token,
    (ids.map JsonText.Value.int).mapM GenerateIn.readId = some ids
  | [] => rfl
  | t :: ids => by
    rw [List.map_cons, List.mapM_cons, mapM_readId ids]
    rfl

/-- **The server reads the body as it was meant.** -/
theorem read_body {readBody : Text → Option GenerateIn} (h : TakesJson readBody) (p : Planned) :
    readBody p.body = some p.asked := by
  have hids : GenerateIn.readIds (some (.arr (p.prompt.map .int))) = some (some p.prompt) := by
    rw [GenerateIn.readIds, mapM_readId]
    rfl
  refine h _ _ _ (parse_body p) ?_
  show (do
    let promptTokenIds ← GenerateIn.readIds (some (.arr (p.prompt.map .int)))
    return ({ promptTokenIds, maxNewTokens := p.maxNew, ignoreEos := true, stream := true } :
      GenerateIn)) = some p.asked
  rw [hids]
  rfl

end LlmServe.Bench
