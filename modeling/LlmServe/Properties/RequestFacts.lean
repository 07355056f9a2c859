import LlmServe.Spec.RequestLife

/-!
# What holds of one request in every phase of its life

Three invariants of `Move`, one for each thing a request has: its end (`Ending`), its memory
(`Table`) and its place in the eviction order (`Counted`). None of them mentions a list of the
scheduler. `Facts` is the three together, and `moves_evolves` says what a request keeps on the way.
-/

namespace LlmServe

open Infra Point

/-- The phases in which a request holds memory. -/
def Phase.Holds (ph : Phase) : Prop := ph = .popped ∨ ph = .batch ∨ ph = .running

/-- A request nobody has built yet. -/
def View.unborn : View where
  phase := .absent
  due := false
  req := .blank
  log := []

variable {cfg : EngineConfig} {m : Manager} {r : Ref} {v v' : View}

/-! ## Its end -/

/-- When and why a request is finished. -/
structure Ending (v : View) : Prop where
  /-- Only `_prefill` and `_decode` leave a token to `_emit`. -/
  due_phase : v.due = true → v.phase = .batch ∨ v.phase = .running
  due_open : v.due = true → v.req.finishReason = none
  early_open : v.phase ≠ .batch → v.phase ≠ .running → v.phase ≠ .gone →
    v.req.finishReason = none
  unsubmitted : v.phase = .absent ∨ v.phase = .inbox → v.req.outputTokenIds = []
  /-- What `_emit` decided is what the tokens say. -/
  reason : v.req.finishReason ≠ some .cancelled →
    v.req.finishReason = Request.endReason v.req.maxNewTokens v.req.ignoreEos v.req.outputTokenIds
  aborted : v.req.finishReason = some .cancelled → v.req.cancelled = true ∧
    Request.endReason v.req.maxNewTokens v.req.ignoreEos v.req.outputTokenIds = none
  /-- No earlier token could have ended the request. -/
  earlier : ∀ out, out <+: v.req.outputTokenIds → out ≠ v.req.outputTokenIds →
    Request.endReason v.req.maxNewTokens v.req.ignoreEos out = none
  firstTokenTime : v.req.outputTokenIds ≠ [] → v.req.firstTokenTime ≠ none
  finishTime : v.req.finishReason ≠ none → v.req.finishTime ≠ none
  gone : v.phase = .gone → v.req.finishReason ≠ none ∨ v.req.cancelled = true

theorem Ending.unborn : Ending .unborn := by
  constructor <;> simp [View.unborn, Request.blank]

/-- The two clauses about the tokens of an open request, together. -/
theorem Ending.prefix_open (h : Ending v) (hopen : v.req.finishReason = none) (out : List Token)
    (hpre : out <+: v.req.outputTokenIds) :
    Request.endReason v.req.maxNewTokens v.req.ignoreEos out = none := by
  by_cases he : out = v.req.outputTokenIds
  · rw [he, ← h.reason (by rw [hopen]; nofun), hopen]
  · exact h.earlier out hpre he

/-- A request never produces more than its limit, once the limit allows a token. -/
theorem Ending.output_le (h : Ending v) (hpos : 1 ≤ v.req.maxNewTokens) :
    (v.req.outputTokenIds.length : Int) ≤ v.req.maxNewTokens := by
  rcases List.eq_nil_or_concat v.req.outputTokenIds with hnil | ⟨init, tok, hout⟩
  · rw [hnil]
    exact Int.le_of_lt hpos
  · rw [List.concat_eq_append] at hout
    -- the output without its last token did not end the request
    have hinit := h.earlier init (hout ▸ List.prefix_append _ _) (by rw [hout]; simp)
    rw [hout, List.length_append, List.length_singleton]
    rcases Request.lt_of_endReason_none hinit with rfl | hlt
    · exact hpos
    · omega

theorem Ending.output_lt (h : Ending v) (hpos : 1 ≤ v.req.maxNewTokens)
    (hopen : v.req.finishReason = none) :
    (v.req.outputTokenIds.length : Int) < v.req.maxNewTokens := by
  rcases Request.lt_of_endReason_none (h.prefix_open hopen _ (List.prefix_refl _)) with hnil | hlt
  · rw [hnil]
    exact hpos
  · exact hlt

theorem ending_emit (h : Ending v) (now : Time) (tok : Token) (hdue : v.due = true)
    (log : List Event) :
    Ending { v with due := false, req := v.req.emit now tok, log := log } := by
  have hopen := h.due_open hdue
  have hreason := Request.emit_finishReason now tok v.req hopen
  refine ⟨nofun, nofun, ?_, ?_, ?_, ?_, ?_, ?_, Request.emit_finishTime now tok v.req, ?_⟩
  · intro hb hr
    rcases h.due_phase hdue with hph | hph
    · exact absurd hph hb
    · exact absurd hph hr
  · rintro (hph | hph) <;> rcases h.due_phase hdue with hd | hd <;> nomatch hph.symm.trans hd
  · intro _
    simpa using hreason
  · intro hc
    exact absurd (hreason.symm.trans hc) (Request.endReason_ne_cancelled _ _ _)
  · intro out hpre hne
    simp only [Request.emit_outputTokenIds, Request.emit_maxNewTokens,
      Request.emit_ignoreEos] at hpre hne ⊢
    rcases List.prefix_concat_iff.mp hpre with he | hpre
    · exact absurd he hne
    · exact h.prefix_open hopen out hpre
  · exact fun _ => Request.emit_firstTokenTime now tok v.req
  · intro hph
    rcases h.due_phase hdue with hd | hd <;> nomatch hph.symm.trans hd

/-- A request with no token due goes to another phase. -/
theorem Ending.relocate (h : Ending v) (ph : Phase) (hdue : v.due = false)
    (hopen : v.req.finishReason = none ∨ ph = .running ∨ ph = .gone)
    (hsub : ph ≠ .absent ∧ ph ≠ .inbox)
    (hgone : ph = .gone → v.req.finishReason ≠ none ∨ v.req.cancelled = true) :
    Ending { v with phase := ph } :=
  { h with
    due_phase := fun hd => absurd (hdue.symm.trans hd) nofun
    early_open := fun _ hr hg => (hopen.resolve_right fun hph => hph.elim hr hg)
    unsubmitted := fun hph => (hph.elim hsub.1 hsub.2).elim
    gone := hgone }

theorem Ending.not_due (h : Ending v) (hb : v.phase ≠ .batch) (hr : v.phase ≠ .running) :
    v.due = false := by
  cases hd : v.due with
  | false => rfl
  | true => exact ((h.due_phase hd).elim hb hr).elim

theorem ending_move (hmv : Move cfg m r v v') (h : Ending v) : Ending v' := by
  cases hmv with
  | stay => exact h
  | cancel =>
    exact { h with
      aborted := fun hc => ⟨rfl, (h.aborted hc).2⟩
      gone := fun _ => Or.inr rfl }
  | create n hphase =>
    have hdue := h.not_due (by simp [hphase]) (by simp [hphase])
    exact {
      due_phase := fun hd => absurd (hdue.symm.trans hd) nofun
      due_open := fun _ => rfl
      early_open := fun _ _ _ => rfl
      unsubmitted := fun _ => rfl
      reason := fun _ => rfl
      aborted := nofun
      earlier := fun out hpre hne => absurd (List.prefix_nil.mp hpre) hne
      firstTokenTime := fun hne => absurd rfl hne
      finishTime := fun hne => absurd rfl hne
      gone := nofun }
  | submit hphase =>
    have hdue := h.not_due (by simp [hphase]) (by simp [hphase])
    have hout := h.unsubmitted (Or.inr hphase)
    have hopen := h.early_open (by simp [hphase]) (by simp [hphase]) (by simp [hphase])
    -- nothing is produced yet, so the new limit changes nothing
    have hsub : Ending { v with req := v.req.submitted } :=
      { h with
        reason := fun _ => by simp [Request.submitted, hopen, hout]
        aborted := fun hc => absurd (hopen.symm.trans hc) nofun
        earlier := fun out hpre hne =>
          absurd ((List.prefix_nil.mp (hout ▸ hpre)).trans hout.symm) hne }
    exact hsub.relocate .waiting hdue (Or.inl hopen) (by simp) nofun
  | drop hphase hc =>
    have hdue := h.not_due (by simp [hphase]) (by simp [hphase])
    exact h.relocate .gone hdue (Or.inr (Or.inr rfl)) (by simp) fun _ => Or.inr hc
  | abort now hphase hdue hc hopen =>
    exact { h with
      due_open := fun hd => absurd (hdue.symm.trans hd) nofun
      early_open := fun _ hr _ => absurd hphase hr
      reason := fun hne => absurd rfl hne
      aborted := fun _ => ⟨hc, h.prefix_open hopen _ (List.prefix_refl _)⟩
      finishTime := nofun
      gone := fun hg => nomatch hphase.symm.trans hg }
  | leave hphase hdue hfin =>
    have hgone := h.relocate .gone hdue (Or.inr (Or.inr rfl)) (by simp)
      fun _ => Or.inl hfin
    exact { hgone with }
  | admitHead blocks seq hphase hlen =>
    have hdue := h.not_due (by simp [hphase]) (by simp [hphase])
    have hopen := h.early_open (by simp [hphase]) (by simp [hphase]) (by simp [hphase])
    have hpop := h.relocate .popped hdue (Or.inl hopen) (by simp) nofun
    exact { hpop with }
  | prefill hphase hdue =>
    have hopen := h.early_open (by simp [hphase]) (by simp [hphase]) (by simp [hphase])
    have hbat := h.relocate .batch hdue (Or.inl hopen) (by simp) nofun
    exact { hbat with
      due_phase := fun _ => Or.inl rfl
      due_open := fun _ => hopen }
  | emit now tok hdue => exact ending_emit h now tok hdue _
  | join hphase hdue => exact h.relocate .running hdue (Or.inr (Or.inl rfl)) (by simp) nofun
  | preempt hphase hdue hopen hpre =>
    have hw := h.relocate .waiting hdue (Or.inl hopen) (by simp) nofun
    exact { hw with }
  | decode tok hphase hdue hopen hlast hcov =>
    exact { h with
      due_phase := fun _ => Or.inr hphase
      due_open := fun _ => hopen }
  | _ => exact { h with }

/-! ## Its place in the eviction order -/

/-- Evictions are paid for with tokens: each needs one more than there were evictions before. -/
structure Counted (v : View) : Prop where
  le : v.req.preemptCount ≤ v.req.outputTokenIds.length
  lt_batch : v.phase = .batch → v.due = false →
    v.req.preemptCount < v.req.outputTokenIds.length
  lt_running : v.phase = .running → v.req.preemptCount < v.req.outputTokenIds.length
  lt_closed : v.req.finishReason ≠ none → v.req.preemptCount < v.req.outputTokenIds.length

theorem Counted.unborn : Counted .unborn := by
  constructor <;> simp [View.unborn, Request.blank]

/-- A request is evicted fewer times than it may produce tokens. -/
theorem Counted.lt_maxNewTokens (h : Counted v) (hend : Ending v) (hpos : 1 ≤ v.req.maxNewTokens) :
    (v.req.preemptCount : Int) < v.req.maxNewTokens := by
  have hle := h.le
  by_cases hopen : v.req.finishReason = none
  · have hlt := hend.output_lt hpos hopen
    omega
  · have hlt := h.lt_closed hopen
    have hout := hend.output_le hpos
    omega

theorem counted_move (hmv : Move cfg m r v v') (h : Counted v) : Counted v' := by
  cases hmv with
  | create n hphase => exact ⟨le_rfl, nofun, nofun, fun hne => absurd rfl hne⟩
  | submit hphase => exact ⟨h.le, nofun, nofun, h.lt_closed⟩
  | drop hphase hc => exact ⟨h.le, nofun, nofun, h.lt_closed⟩
  | abort now hphase hdue hc hopen =>
    exact ⟨h.le, h.lt_batch, h.lt_running, fun _ => h.lt_running hphase⟩
  | leave hphase hdue hfin => exact ⟨h.le, nofun, nofun, h.lt_closed⟩
  | admitHead blocks seq hphase hlen => exact ⟨h.le, nofun, nofun, h.lt_closed⟩
  | prefill hphase hdue => exact ⟨h.le, nofun, nofun, h.lt_closed⟩
  | emit now tok hdue =>
    have hlt : (v.req.emit now tok).preemptCount
        < (v.req.emit now tok).outputTokenIds.length := by
      have := h.le
      simp only [Request.emit_preemptCount, Request.emit_outputTokenIds, List.length_append,
        List.length_singleton]
      omega
    exact ⟨hlt.le, fun _ _ => hlt, fun _ => hlt, fun _ => hlt⟩
  | join hphase hdue => exact ⟨h.le, nofun, fun _ => h.lt_batch hphase hdue, h.lt_closed⟩
  | preempt hphase hdue hopen hpre =>
    exact ⟨h.lt_running hphase, nofun, nofun, fun hne => absurd hopen hne⟩
  | decode tok hphase hdue hopen hlast hcov => exact ⟨h.le, nofun, h.lt_running, h.lt_closed⟩
  | _ => exact { h with }

/-! ## Its memory -/

/-- The block table of a request: empty outside, long enough for what is stored, never longer than
what its tokens need. -/
structure Table (m : Manager) (v : View) : Prop where
  due_phase : v.due = true → v.phase = .batch ∨ v.phase = .running
  nil : ¬v.phase.Holds → v.req.blockTable = []
  le : v.phase.Holds → (v.req.blockTable.length : Int) ≤ m.unitsNeeded v.req.seqLen
  /-- Everything but the newest token is stored. -/
  stored : v.phase.Holds → m.unitsNeeded (v.req.seqLen - 1) ≤ v.req.blockTable.length
  popped : v.phase = .popped → m.unitsNeeded v.req.seqLen ≤ v.req.blockTable.length
  /-- A forward pass runs only with room for every token. -/
  due : v.due = true → m.unitsNeeded v.req.seqLen ≤ v.req.blockTable.length

theorem Table.unborn (m : Manager) : Table m .unborn where
  due_phase := nofun
  nil := fun _ => rfl
  le := by rintro (h | h | h) <;> cases h
  stored := by rintro (h | h | h) <;> cases h
  popped := nofun
  due := nofun

/-- Leaving memory behind, or never having had any. -/
theorem Table.outside (m : Manager) {v : View} (hdue : v.due = false) (hph : ¬v.phase.Holds)
    (ht : v.req.blockTable = []) : Table m v where
  due_phase := fun hd => absurd (hdue.symm.trans hd) nofun
  nil := fun _ => ht
  le := fun hh => absurd hh hph
  stored := fun hh => absurd hh hph
  popped := fun hh => absurd (Or.inl hh) hph
  due := fun hd => absurd (hdue.symm.trans hd) nofun

theorem Table.not_due (h : Table m v) (hb : v.phase ≠ .batch) (hr : v.phase ≠ .running) :
    v.due = false := by
  cases hd : v.due with
  | false => rfl
  | true => exact ((h.due_phase hd).elim hb hr).elim

theorem slot_unitsNeeded (hp : m.paged = false) (n : Int) : m.unitsNeeded n = 1 := by
  cases m with
  | slot m => rfl
  | block m => cases hp

/-- A slot is one entry, whatever it stores. -/
theorem Table.slot (h : Table m v) (hp : m.paged = false) (hh : v.phase.Holds) :
    v.req.blockTable.length = 1 := by
  have hle := h.le hh
  have hst := h.stored hh
  rw [slot_unitsNeeded hp] at hle hst
  omega

theorem table_move (hmv : Move cfg m r v v') (h : Table m v) : Table m v' := by
  cases hmv with
  | create n hphase =>
    have hdue := h.not_due (by simp [hphase]) (by simp [hphase])
    exact .outside m hdue (by simp [Phase.Holds]) rfl
  | submit hphase =>
    have hdue := h.not_due (by simp [hphase]) (by simp [hphase])
    exact .outside m hdue (by simp [Phase.Holds]) (h.nil (by simp [Phase.Holds, hphase]))
  | drop hphase hc =>
    have hdue := h.not_due (by simp [hphase]) (by simp [hphase])
    exact .outside m hdue (by simp [Phase.Holds]) (h.nil (by simp [Phase.Holds, hphase]))
  | leave hphase hdue hfin => exact .outside m hdue (by simp [Phase.Holds]) rfl
  | admitHead blocks seq hphase hlen =>
    have hdue := h.not_due (by simp [hphase]) (by simp [hphase])
    refine ⟨fun hd => absurd (hdue.symm.trans hd) nofun, fun hh => absurd (Or.inl rfl) hh,
      fun _ => hlen.le, fun _ => ?_, fun _ => hlen.ge, fun _ => hlen.ge⟩
    show m.unitsNeeded ((v.req.seqLen : Int) - 1) ≤ blocks.length
    rw [hlen]
    exact m.unitsNeeded_mono (by omega)
  | prefill hphase hdue =>
    have hh : v.phase.Holds := Or.inl hphase
    exact ⟨fun _ => Or.inl rfl, fun hn => absurd (Or.inr (Or.inl rfl)) hn, fun _ => h.le hh,
      fun _ => h.stored hh, nofun, fun _ => h.popped hphase⟩
  | emit now tok hdue =>
    have hh : v.phase.Holds := Or.inr (h.due_phase hdue)
    have hcast : (((v.req.emit now tok).seqLen : Nat) : Int) = v.req.seqLen + 1 := by
      rw [Request.emit_seqLen]
      omega
    refine ⟨nofun, fun hn => absurd hh hn, fun _ => ?_, fun _ => ?_, fun hp => ?_, nofun⟩
    · rw [Request.emit_blockTable, hcast]
      exact (h.le hh).trans (m.unitsNeeded_mono (by omega))
    · rw [Request.emit_blockTable, hcast, Int.add_sub_cancel]
      exact h.due hdue
    · rcases h.due_phase hdue with hd | hd <;> nomatch hp.symm.trans hd
  | join hphase hdue =>
    have hh : v.phase.Holds := Or.inr (Or.inl hphase)
    exact ⟨fun _ => Or.inr rfl, fun hn => absurd (Or.inr (Or.inr rfl)) hn, fun _ => h.le hh,
      fun _ => h.stored hh, nofun, h.due⟩
  | grow blocks hphase hdue hopen hslot hlen =>
    have hh : v.phase.Holds := Or.inr (Or.inr hphase)
    have hle : (v.req.blockTable.length : Int) ≤ (v.req.blockTable ++ blocks).length := by simp
    refine ⟨h.due_phase, fun hn => absurd hh hn, fun _ => ?_, fun _ => (h.stored hh).trans hle,
      fun hp => (h.popped hp).trans hle, fun hd => (h.due hd).trans hle⟩
    by_cases hb : blocks = []
    · subst hb
      simpa using h.le hh
    · exact hlen hb
  | preempt hphase hdue hopen hpre => exact .outside m hdue (by simp [Phase.Holds]) rfl
  | decode tok hphase hdue hopen hlast hcov =>
    have hh : v.phase.Holds := Or.inr (Or.inr hphase)
    refine ⟨fun _ => Or.inr hphase, h.nil, h.le, h.stored, h.popped, fun _ => ?_⟩
    cases hp : m.paged with
    | true => exact hcov hp
    | false =>
      have hone := h.slot hp hh
      show m.unitsNeeded v.req.seqLen ≤ (v.req.blockTable.length : Int)
      rw [slot_unitsNeeded hp, hone]
      rfl
  | _ => exact { h with }

/-! ## What it keeps -/

/-- Once submitted, a request evolves, and never becomes unsubmitted again. -/
theorem move_evolves (hmv : Move cfg m r v v') (h : Ending v) (ha : v.phase ≠ .absent)
    (hi : v.phase ≠ .inbox) :
    v.req.Evolves v'.req ∧ v'.phase ≠ .absent ∧ v'.phase ≠ .inbox := by
  have hrefl := Request.Evolves.refl v.req
  cases hmv with
  | stay => exact ⟨hrefl, ha, hi⟩
  | cancel => exact ⟨{ hrefl with cancelled := fun _ => rfl }, ha, hi⟩
  | create n hphase => exact absurd hphase ha
  | submit hphase => exact absurd hphase hi
  | abort now hphase hdue hc hopen =>
    exact ⟨{ hrefl with
      finishReason := fun hne => absurd hopen hne
      closed := fun hne => absurd hopen hne }, ha, hi⟩
  | emit now tok hdue => exact ⟨.emit now tok v.req (h.due_open hdue), ha, hi⟩
  | preempt hphase hdue hopen hpre =>
    exact ⟨{ hrefl with preemptCount := Nat.le_succ _ }, nofun, nofun⟩
  | drop | join => exact ⟨hrefl, nofun, nofun⟩
  | leave | admitHead | prefill => exact ⟨{ hrefl with }, nofun, nofun⟩
  | _ => exact ⟨{ hrefl with }, ha, hi⟩

/-- The three invariants together. -/
structure Facts (m : Manager) (v : View) : Prop where
  ending : Ending v
  counted : Counted v
  table : Table m v

theorem Facts.unborn (m : Manager) : Facts m .unborn := ⟨.unborn, .unborn, .unborn m⟩

theorem facts_move (hmv : Move cfg m r v v') (h : Facts m v) : Facts m v' :=
  ⟨ending_move hmv h.ending, counted_move hmv h.counted, table_move hmv h.table⟩

theorem facts_moves (hmv : Moves cfg m r v v') (h : Facts m v) : Facts m v' := by
  have hstep : ∀ x y, Move cfg m r x y → Facts m x → Facts m y := fun _ _ => facts_move
  exact reach_invariant hstep hmv h

theorem moves_evolves (hmv : Moves cfg m r v v') (h : Facts m v) (ha : v.phase ≠ .absent)
    (hi : v.phase ≠ .inbox) : v.req.Evolves v'.req ∧ v'.phase ≠ .absent ∧ v'.phase ≠ .inbox := by
  induction hmv with
  | refl => exact ⟨.refl _, ha, hi⟩
  | tail hmvs hmv ih =>
    obtain ⟨hev, ha', hi'⟩ := ih
    obtain ⟨hev', ha'', hi''⟩ := move_evolves hmv (facts_moves hmvs h).ending ha' hi'
    exact ⟨hev.trans hev', ha'', hi''⟩

/-- A request that stays in the inbox changes only its flag. -/
theorem moves_inbox (hmv : Moves cfg m r v v') (h : Facts m v) (hi : v.phase = .inbox)
    (hi' : v'.phase = .inbox) : v'.req = { v.req with cancelled := v'.req.cancelled } := by
  have hstep : ∀ x y, Move cfg m r x y →
      Facts m x ∧ ((x.phase = .inbox ∧ x.req = { v.req with cancelled := x.req.cancelled }) ∨
        (x.phase ≠ .absent ∧ x.phase ≠ .inbox)) →
      Facts m y ∧ ((y.phase = .inbox ∧ y.req = { v.req with cancelled := y.req.cancelled }) ∨
        (y.phase ≠ .absent ∧ y.phase ≠ .inbox)) := by
    rintro x y hxy ⟨hx, ⟨hph, hreq⟩ | ⟨ha, hin⟩⟩
    · refine ⟨facts_move hxy hx, ?_⟩
      have hdue : x.due = false := hx.ending.not_due (by simp [hph]) (by simp [hph])
      cases hxy with
      | stay => exact Or.inl ⟨hph, hreq⟩
      | cancel => exact Or.inl ⟨hph, by rw [hreq]⟩
      | submit hphase => exact Or.inr ⟨nofun, nofun⟩
      | emit now tok hd => cases hdue.symm.trans hd
      | create n hphase => cases hph.symm.trans hphase
      | _ => simp_all
    · exact ⟨facts_move hxy hx, Or.inr (move_evolves hxy hx.ending ha hin).2⟩
  obtain ⟨-, ⟨-, hreq⟩ | ⟨-, hin⟩⟩ := reach_invariant hstep hmv ⟨h, Or.inl ⟨hi, rfl⟩⟩
  · exact hreq
  · exact absurd hi' hin

/-! ## After it left -/

/-- A request that left never comes back, and only its client still writes to it. -/
theorem gone_move (hmv : Move cfg m r v v') (h : Ending v) (hgone : v.phase = .gone) :
    v'.phase = .gone ∧ v'.log = v.log ∧
      (v'.req = v.req ∨ v'.req = { v.req with cancelled := true }) := by
  have hdue := h.not_due (by simp [hgone]) (by simp [hgone])
  cases hmv with
  | stay => exact ⟨hgone, rfl, Or.inl rfl⟩
  | cancel => exact ⟨hgone, rfl, Or.inr rfl⟩
  | emit now tok hd => exact absurd (hdue.symm.trans hd) nofun
  | create n hphase | submit hphase | drop hphase | abort now hphase | leave hphase =>
    exact absurd (hgone.symm.trans hphase) nofun
  | admitHead blocks seq hphase => exact absurd (hgone.symm.trans hphase) nofun
  | prefill hphase | setRunning hphase | join hphase | preempt hphase =>
    exact absurd (hgone.symm.trans hphase) nofun
  | grow blocks hphase | decode tok hphase => exact absurd (hgone.symm.trans hphase) nofun

theorem gone_moves (hmvs : Moves cfg m r v v') (h : Facts m v) (hgone : v.phase = .gone) :
    v'.phase = .gone ∧ v'.log = v.log ∧ v'.req.finishReason = v.req.finishReason := by
  induction hmvs with
  | refl => exact ⟨hgone, rfl, rfl⟩
  | tail hmvs hmv ih =>
    obtain ⟨hph, hlog, hreason⟩ := ih
    obtain ⟨hph', hlog', hreq⟩ := gone_move hmv (facts_moves hmvs h).ending hph
    refine ⟨hph', hlog'.trans hlog, Eq.trans ?_ hreason⟩
    rcases hreq with he | he <;> rw [he]

end LlmServe
