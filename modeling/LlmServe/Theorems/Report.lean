import LlmServe.Bench.Summarize
import LlmServe.Infra.FoldPerm
import LlmServe.Theorems.Percentiles

/-!
# The report and the order of the results

The results come from one goroutine a request. `summarize` reads them in the order of the plan and
passes over the injected ones; every figure is a count, a sum, a maximum or comes from a sorted
list, so neither the order nor the injected results show.
-/

namespace LlmServe.Bench

open Infra

/-! ## What one result adds -/

/-- Equal figures, and the same samples in some order. -/
structure Samples.Same (t t' : Samples) : Prop where
  rep : t.rep = t'.rep
  ttft : t.ttft.Perm t'.ttft
  tpot : t.tpot.Perm t'.tpot
  e2e : t.e2e.Perm t'.e2e
  itl : t.itl.Perm t'.itl
  tokens : t.tokens = t'.tokens
  last : t.last = t'.last

theorem same_equivalence : Equivalence Samples.Same where
  refl _ := ⟨rfl, .rfl, .rfl, .rfl, .rfl, rfl, rfl⟩
  symm h := ⟨h.rep.symm, h.ttft.symm, h.tpot.symm, h.e2e.symm, h.itl.symm, h.tokens.symm,
    h.last.symm⟩
  trans h h' := ⟨h.rep.trans h'.rep, h.ttft.trans h'.ttft, h.tpot.trans h'.tpot,
    h.e2e.trans h'.e2e, h.itl.trans h'.itl, h.tokens.trans h'.tokens, h.last.trans h'.last⟩

/-- The figures of the loop, one by one. -/
def Report.plus (rep d : Report) : Report :=
  { rep with
    offered := rep.offered + d.offered
    completed := rep.completed + d.completed
    rejected := rep.rejected + d.rejected
    errors := rep.errors + d.errors
    incomplete := rep.incomplete + d.incomplete
    sloMet := rep.sloMet + d.sloMet
    maxSendLatenessS := max rep.maxSendLatenessS d.maxSendLatenessS }

def Samples.plus (t d : Samples) : Samples where
  rep := t.rep.plus d.rep
  ttft := t.ttft ++ d.ttft
  tpot := t.tpot ++ d.tpot
  e2e := t.e2e ++ d.e2e
  itl := t.itl ++ d.itl
  tokens := t.tokens + d.tokens
  -- with nothing completed there is no last end
  last := if d.rep.completed = 0 then t.last else max t.last d.last

theorem Report.plus_right_comm (rep d d' : Report) : (rep.plus d).plus d' = (rep.plus d').plus d := by
  simp only [Report.plus, Nat.add_right_comm, max_right_comm]

theorem append_right_comm_perm {α : Type} (l d d' : List α) : (l ++ d ++ d').Perm (l ++ d' ++ d) := by
  rw [List.append_assoc, List.append_assoc]
  exact List.perm_append_comm.append_left l

theorem Samples.plus_right_comm (t d d' : Samples) :
    ((t.plus d).plus d').Same ((t.plus d').plus d) where
  rep := t.rep.plus_right_comm d.rep d'.rep
  ttft := append_right_comm_perm _ _ _
  tpot := append_right_comm_perm _ _ _
  e2e := append_right_comm_perm _ _ _
  itl := append_right_comm_perm _ _ _
  tokens := Nat.add_right_comm _ _ _
  last := by
    simp only [Samples.plus]
    split_ifs <;> simp only [max_right_comm]

theorem Samples.Same.plus {t t' : Samples} (h : t.Same t') (d : Samples) :
    (t.plus d).Same (t'.plus d) where
  rep := congrArg (·.plus d.rep) h.rep
  ttft := h.ttft.append_right _
  tpot := h.tpot.append_right _
  e2e := h.e2e.append_right _
  itl := h.itl.append_right _
  tokens := congrArg (· + d.tokens) h.tokens
  last := by simp only [Samples.plus, h.last]

/-- What a result adds. -/
def SentResult.gain (sloTTFT sloTPOT : Rat) (r : SentResult) : Samples :=
  let offered : Report := { offered := 1, maxSendLatenessS := r.latenessS }
  match r.status with
  | .ok =>
    { rep := { offered with
        completed := 1
        sloMet := if r.ttft ≤ sloTTFT ∧ r.tpot ≤ sloTPOT then 1 else 0 }
      ttft := [r.ttft]
      tpot := if r.outTokens > 1 then [r.tpot] else []
      e2e := [r.e2e]
      itl := gaps r.tokenTimes
      tokens := r.outTokens
      last := r.arrivalS + r.e2e }
  | .rejected => { rep := { offered with rejected := 1 } }
  | .error => { rep := { offered with errors := 1 } }
  | .incomplete => { rep := { offered with incomplete := 1 } }

theorem ite_gt_eq_max (a b : Rat) : (if a > b then a else b) = max b a := by
  rcases lt_or_ge b a with h | h
  · rw [if_pos h, max_eq_right h.le]
  · rw [if_neg (not_lt.mpr h), max_eq_left h]

section

variable {sloTTFT sloTPOT : Rat}

theorem onResult_injected {r : SentResult} (h : r.injected = true) (t : Samples) :
    t.onResult sloTTFT sloTPOT r = t := by
  unfold Samples.onResult
  rw [if_pos h]

theorem onResult_eq_plus {r : SentResult} (h : r.injected = false) (t : Samples) :
    t.onResult sloTTFT sloTPOT r = t.plus (r.gain sloTTFT sloTPOT) := by
  have hinj : ¬r.injected = true := by simp [h]
  unfold Samples.onResult SentResult.gain
  rw [if_neg hinj]
  cases r.status with
  | ok =>
    simp only [Samples.onOk, Samples.plus, Report.plus, ite_gt_eq_max, one_ne_zero, if_false]
    split_ifs <;> simp
  | rejected => simp [Samples.plus, Report.plus, ite_gt_eq_max]
  | error => simp [Samples.plus, Report.plus, ite_gt_eq_max]
  | incomplete => simp [Samples.plus, Report.plus, ite_gt_eq_max]

theorem Samples.Same.onResult {t t' : Samples} (r : SentResult) (h : t.Same t') :
    (t.onResult sloTTFT sloTPOT r).Same (t'.onResult sloTTFT sloTPOT r) := by
  cases hinj : r.injected with
  | true =>
    rw [onResult_injected hinj, onResult_injected hinj]
    exact h
  | false =>
    rw [onResult_eq_plus hinj, onResult_eq_plus hinj]
    exact h.plus _

theorem onResult_right_comm (t : Samples) (r r' : SentResult) :
    ((t.onResult sloTTFT sloTPOT r).onResult sloTTFT sloTPOT r').Same
      ((t.onResult sloTTFT sloTPOT r').onResult sloTTFT sloTPOT r) := by
  cases hinj : r.injected with
  | true =>
    rw [onResult_injected hinj, onResult_injected hinj]
    exact same_equivalence.refl _
  | false =>
    cases hinj' : r'.injected with
    | true =>
      rw [onResult_injected hinj', onResult_injected hinj']
      exact same_equivalence.refl _
    | false =>
      rw [onResult_eq_plus hinj, onResult_eq_plus hinj', onResult_eq_plus hinj',
        onResult_eq_plus hinj]
      exact t.plus_right_comm _ _

end

/-! ## Lists with the same offered results -/

def offeredOf (rs : List SentResult) : List SentResult := rs.filter (!·.injected)

def completedOf (rs : List SentResult) : List SentResult := (offeredOf rs).filter (·.status = .ok)

/-- Permuted, with injected results put in and taken out. -/
inductive Rearranged : List SentResult → List SentResult → Prop where
  | permuted {rs rs' : List SentResult} (h : rs.Perm rs') : Rearranged rs rs'
  | inserted {r : SentResult} (xs ys : List SentResult) (h : r.injected = true) :
      Rearranged (xs ++ ys) (xs ++ r :: ys)
  | removed {r : SentResult} (xs ys : List SentResult) (h : r.injected = true) :
      Rearranged (xs ++ r :: ys) (xs ++ ys)
  | trans {rs rs' rs'' : List SentResult} (h : Rearranged rs rs') (h' : Rearranged rs' rs'') :
      Rearranged rs rs''

theorem offeredOf_injected {r : SentResult} (h : r.injected = true) (xs ys : List SentResult) :
    offeredOf (xs ++ r :: ys) = offeredOf (xs ++ ys) := by
  simp [offeredOf, h]

theorem Rearranged.offeredOf_perm {rs rs' : List SentResult} (h : Rearranged rs rs') :
    (offeredOf rs).Perm (offeredOf rs') := by
  induction h with
  | permuted h => exact h.filter _
  | inserted xs ys h => rw [offeredOf_injected h]
  | removed xs ys h => rw [offeredOf_injected h]
  | trans _ _ ih ih' => exact ih.trans ih'

section

variable {sloTTFT sloTPOT : Rat}

theorem foldl_offeredOf (rs : List SentResult) (t : Samples) :
    (offeredOf rs).foldl (Samples.onResult sloTTFT sloTPOT) t =
      rs.foldl (Samples.onResult sloTTFT sloTPOT) t := by
  refine foldl_of_ignores (fun t r hr => onResult_injected ?_ t) rs t
  simpa using hr

theorem Rearranged.same {rs rs' : List SentResult} (h : Rearranged rs rs') (t : Samples) :
    (rs.foldl (Samples.onResult sloTTFT sloTPOT) t).Same
      (rs'.foldl (Samples.onResult sloTTFT sloTPOT) t) := by
  rw [← foldl_offeredOf rs, ← foldl_offeredOf rs']
  exact foldl_perm same_equivalence (fun r hs => hs.onResult r)
    (fun t r r' => onResult_right_comm t r r') h.offeredOf_perm t

end

/-! ## From the samples to the report -/

theorem pcts_congr (nan : Rat) {xs xs' : List Rat} (h : xs.Perm xs') : pcts nan xs = pcts nan xs' := by
  simp only [pcts, h.length_eq, sortKey_id_congr h]

theorem Samples.Same.report_eq {t t' : Samples} (h : t.Same t') (nan duration sloTTFT sloTPOT : Rat) :
    t.report nan duration sloTTFT sloTPOT = t'.report nan duration sloTTFT sloTPOT := by
  unfold Samples.report
  rw [pcts_congr nan h.ttft, pcts_congr nan h.tpot, pcts_congr nan h.e2e, pcts_congr nan h.itl,
    h.rep, h.tokens, h.last]

/-- No percentile of a sorted sample panics. -/
theorem percentile_eq_getElem (nan : Rat) {s : List Rat} (hs : s ≠ []) {p : Rat} (h0 : 0 ≤ p)
    (h100 : p ≤ 100) : ∃ i, ∃ hi : i < s.length,
      roundHalfAway (p / 100 * ((s.length : Rat) - 1)) = i ∧ percentile nan s p = some s[i] := by
  have hn : 0 < s.length := List.length_pos_iff.mpr hs
  have hr := rank_nonneg hn h0
  obtain ⟨hlo, hhi⟩ := roundHalfAway_mem (m := 0) hr (by exact_mod_cast hr) (rank_le hn h100)
  obtain ⟨i, hi⟩ := Int.eq_ofNat_of_zero_le hlo
  have hlt : i < s.length := by omega
  exact ⟨i, hlt, hi, bench_percentile_eq hi hlt⟩

/-- `pcts` returns, and its `P99` is the sample at that rank. -/
theorem pcts_isSome (nan : Rat) (xs : List Rat) : ∃ q, pcts nan xs = some q ∧ (xs ≠ [] →
    ∃ i, ∃ hi : i < (sortKey id xs).length,
      roundHalfAway (99 / 100 * ((xs.length : Rat) - 1)) = i ∧ q.p99 = (sortKey id xs)[i]) := by
  have hlen : (sortKey id xs).length = xs.length := (sortKey_perm id xs).length_eq
  by_cases hxs : xs = []
  · subst hxs
    exact ⟨{}, rfl, fun h => absurd rfl h⟩
  · have hne : ¬xs.length = 0 := fun h => hxs (List.length_eq_zero_iff.mp h)
    have hs : sortKey id xs ≠ [] := by
      intro h
      rw [h] at hlen
      exact hne hlen.symm
    obtain ⟨i50, _, _, h50⟩ := percentile_eq_getElem nan hs (p := 50) (by norm_num) (by norm_num)
    obtain ⟨i95, _, _, h95⟩ := percentile_eq_getElem nan hs (p := 95) (by norm_num) (by norm_num)
    obtain ⟨i, hi, hrank, h99⟩ := percentile_eq_getElem nan hs (p := 99) (by norm_num) (by norm_num)
    have hq : pcts nan xs = some
        { p50 := (sortKey id xs)[i50], p95 := (sortKey id xs)[i95], p99 := (sortKey id xs)[i]
          mean := (sortKey id xs).sum / (sortKey id xs).length } := by
      simp only [pcts, if_neg hne, h50, h95, h99]
      rfl
    exact ⟨_, hq, fun _ => ⟨i, hi, hlen ▸ hrank, rfl⟩⟩

theorem report_isSome (nan : Rat) (t : Samples) (duration sloTTFT sloTPOT : Rat) :
    ∃ rep q, t.report nan duration sloTTFT sloTPOT = some rep ∧ pcts nan t.ttft = some q ∧
      rep.offered = t.rep.offered ∧ rep.completed = t.rep.completed ∧
      rep.rejected = t.rep.rejected ∧ rep.errors = t.rep.errors ∧
      rep.incomplete = t.rep.incomplete ∧ rep.sloMet = t.rep.sloMet ∧
      rep.p99TTFTMeetsSLO = decide (t.rep.completed > 0 ∧ q.p99 ≤ sloTTFT) := by
  obtain ⟨ttft, httft, -⟩ := pcts_isSome nan t.ttft
  obtain ⟨tpot, htpot, -⟩ := pcts_isSome nan t.tpot
  obtain ⟨e2e, he2e, -⟩ := pcts_isSome nan t.e2e
  obtain ⟨itl, hitl, -⟩ := pcts_isSome nan t.itl
  unfold Samples.report
  rw [httft, htpot, he2e, hitl]
  exact ⟨_, ttft, rfl, rfl, rfl, rfl, rfl, rfl, rfl, rfl, rfl⟩

/-! ## The counters -/

structure Report.Counted (rep : Report) : Prop where
  offered : rep.offered = rep.completed + rep.rejected + rep.errors + rep.incomplete
  sloMet : rep.sloMet ≤ rep.completed

theorem Report.Counted.plus {rep d : Report} (h : rep.Counted) (hd : d.Counted) :
    (rep.plus d).Counted := by
  have h1 := h.offered
  have h2 := hd.offered
  have h3 := h.sloMet
  have h4 := hd.sloMet
  constructor
  · simp only [Report.plus]
    omega
  · simp only [Report.plus]
    omega

section

variable (sloTTFT sloTPOT : Rat)

theorem counted_gain (r : SentResult) : (r.gain sloTTFT sloTPOT).rep.Counted := by
  unfold SentResult.gain
  cases r.status with
  | ok =>
    refine ⟨rfl, ?_⟩
    simp only
    split_ifs <;> omega
  | rejected => exact ⟨rfl, le_rfl⟩
  | error => exact ⟨rfl, le_rfl⟩
  | incomplete => exact ⟨rfl, le_rfl⟩

theorem counted_foldl : ∀ (rs : List SentResult) {t : Samples}, t.rep.Counted →
    (rs.foldl (Samples.onResult sloTTFT sloTPOT) t).rep.Counted
  | [], _, h => h
  | r :: rs, t, h => by
    refine counted_foldl rs ?_
    cases hinj : r.injected with
    | true =>
      rw [onResult_injected hinj]
      exact h
    | false =>
      rw [onResult_eq_plus hinj]
      exact h.plus (counted_gain _ _ r)

theorem gain_ttft (r : SentResult) : (r.gain sloTTFT sloTPOT).rep.completed =
      ([r].filter (·.status = .ok)).length ∧
    (r.gain sloTTFT sloTPOT).ttft = ([r].filter (·.status = .ok)).map (·.ttft) := by
  unfold SentResult.gain
  cases h : r.status <;> simp [h]

theorem completedOf_cons (r : SentResult) (rs : List SentResult) (h : r.injected = false) :
    completedOf (r :: rs) = [r].filter (·.status = .ok) ++ completedOf rs := by
  unfold completedOf offeredOf
  rw [List.filter_cons_of_pos (by simp [h]), ← List.singleton_append, List.filter_append]

/-- The samples of the first token are those of the completed results. -/
theorem foldl_ttft : ∀ (rs : List SentResult) (t : Samples),
    (rs.foldl (Samples.onResult sloTTFT sloTPOT) t).rep.completed =
      t.rep.completed + (completedOf rs).length ∧
    (rs.foldl (Samples.onResult sloTTFT sloTPOT) t).ttft =
      t.ttft ++ (completedOf rs).map (·.ttft)
  | [], _ => ⟨rfl, (List.append_nil _).symm⟩
  | r :: rs, t => by
    rw [List.foldl_cons]
    obtain ⟨ih, ih'⟩ := foldl_ttft rs (t.onResult sloTTFT sloTPOT r)
    rw [ih, ih']
    cases hinj : r.injected with
    | true =>
      have hrest : completedOf (r :: rs) = completedOf rs := by
        simp [completedOf, offeredOf, hinj]
      rw [onResult_injected hinj, hrest]
      exact ⟨rfl, rfl⟩
    | false =>
      obtain ⟨hc, ht⟩ := gain_ttft sloTTFT sloTPOT r
      rw [onResult_eq_plus hinj, completedOf_cons r rs hinj, List.length_append, List.map_append]
      simp only [Samples.plus, Report.plus, hc, ht, Nat.add_assoc, List.append_assoc, and_self]

end

/--
**The report depends on the offered results only.** `summarize` returns, and returns the same
report for every rearrangement. Each offered result is counted under one status, the results that
meet the SLO are among the completed ones, and the flag of the first token stands for as many
completed results as its rank says.
-/
theorem report_of_offered (nan : Rat) (rs : List SentResult)
    (duration elapsed sloTTFT sloTPOT : Rat) :
    ∃ rep, summarize nan rs duration elapsed sloTTFT sloTPOT = some rep ∧
      (∀ rs', Rearranged rs rs' → summarize nan rs' duration elapsed sloTTFT sloTPOT = some rep) ∧
      rep.offered = rep.completed + rep.rejected + rep.errors + rep.incomplete ∧
      rep.sloMet ≤ rep.completed ∧
      rep.completed = (completedOf rs).length ∧
      (rep.p99TTFTMeetsSLO = true →
        roundHalfAway (99 / 100 * ((rep.completed : Rat) - 1)) + 1 ≤
          ((completedOf rs).countP fun r => decide (r.ttft ≤ sloTTFT) : Nat)) := by
  let init : Samples := { rep := { elapsedS := elapsed, sloTTFT, sloTPOT } }
  have hcounted := counted_foldl sloTTFT sloTPOT rs (t := init) ⟨rfl, le_rfl⟩
  obtain ⟨hcompleted, httft⟩ := foldl_ttft sloTTFT sloTPOT rs init
  have hsum : ∀ rs', summarize nan rs' duration elapsed sloTTFT sloTPOT =
      (rs'.foldl (Samples.onResult sloTTFT sloTPOT) init).report nan duration sloTTFT sloTPOT :=
    fun _ => rfl
  obtain ⟨rep, q, hrep, hq, h1, h2, h3, h4, h5, h6, h7⟩ := report_isSome nan
    (rs.foldl (Samples.onResult sloTTFT sloTPOT) init) duration sloTTFT sloTPOT
  rw [hcompleted, Nat.zero_add] at h2
  rw [httft, List.nil_append] at hq
  refine ⟨rep, (hsum rs).trans hrep, ?_, ?_, ?_, h2, ?_⟩
  · intro rs' h
    rw [hsum rs', ← (h.same init).report_eq]
    exact hrep
  · rw [h1, h3, h4, h5, h2, ← Nat.zero_add (completedOf rs).length, ← hcompleted]
    exact hcounted.offered
  · rw [h6, h2, ← Nat.zero_add (completedOf rs).length, ← hcompleted]
    exact hcounted.sloMet
  · intro hflag
    rw [h7, hcompleted, Nat.zero_add] at hflag
    obtain ⟨hpos, hle⟩ := of_decide_eq_true hflag
    obtain ⟨q', hq', hp99⟩ := pcts_isSome nan ((completedOf rs).map (·.ttft))
    obtain rfl : q' = q := Option.some.inj (hq'.symm.trans hq)
    obtain ⟨i, hi, hrank, hqi⟩ := hp99 (by
      rw [ne_eq, List.map_eq_nil_iff, ← List.length_eq_zero_iff]
      omega)
    rw [hqi] at hle
    -- so many samples of the sorted list are at most the SLO, hence so many of the results are
    have hcount := lt_countP_of_sorted (sortKey_sorted id _) hi hle
    rw [(sortKey_perm id _).countP_eq, List.countP_map] at hcount
    rw [List.length_map] at hrank
    rw [h2, hrank]
    exact_mod_cast hcount

end LlmServe.Bench
