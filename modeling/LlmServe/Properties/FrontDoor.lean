import LlmServe.Properties.LoopOrigin

/-!
# From the front door to the engine loop

A run of the server is a run of the engine loop over the requests that the handler built
(`serve_acts`). The handler lets through what `fits_ever` accepts and nothing longer than the
context. What it does not look at is up to the clients: a positive limit, ids of the vocabulary, and
a request id nobody else uses (`Posted`).
-/

namespace LlmServe

open Infra Point

variable {σ : Type} {env : Env σ} {cfg : EngineConfig} {m : Manager} {w : σ}
  {encode : Text → List Token}

/-- The bodies posted to `/generate`, with their request ids. -/
def posts (acts : List ServerAction) : List (GenerateIn × String) :=
  acts.filterMap fun
    | .generate body rid _ => some (body, rid)
    | _ => none

theorem posts_append (as bs : List ServerAction) : posts (as ++ bs) = posts as ++ posts bs :=
  List.filterMap_append

/-- The handler makes `n` of one of these bodies. -/
def Asked (encode : Text → List Token) (m : Manager) (acts : List ServerAction) (n : NewRequest) :
    Prop :=
  ∃ body now sink, (body, n.requestId) ∈ posts acts ∧
    body.toRequest encode m n.requestId now sink = .ok n

theorem Asked.append {as : List ServerAction} {n : NewRequest} (h : Asked encode m as n)
    (bs : List ServerAction) : Asked encode m (as ++ bs) n := by
  obtain ⟨body, now, sink, hmem, hn⟩ := h
  exact ⟨body, now, sink, posts_append as bs ▸ List.mem_append_left _ hmem, hn⟩

theorem toRequest_congr {m' : Manager} (h : m'.fitsEver = m.fitsEver) (body : GenerateIn)
    (rid : String) (now : Time) (sink : Nat) :
    body.toRequest encode m' rid now sink = body.toRequest encode m rid now sink := by
  unfold GenerateIn.toRequest
  rw [h]

theorem toRequest_requestId {body : GenerateIn} {rid : String} {now : Time} {sink : Nat}
    {n : NewRequest} (h : body.toRequest encode m rid now sink = .ok n) : n.requestId = rid := by
  obtain ⟨ids, -, h⟩ := exists_of_bind_ok h
  split at h
  · cases h
  · split at h <;> cases h
    rfl

/-- **A run of the server is a run of the engine loop** over requests the handler made. -/
theorem serve_acts (hm : m.Fresh) {acts : List ServerAction} {l : EngineLoop σ}
    (hrun : run (EngineLoop.serve encode env cfg) (.init cfg m w) acts = .ok l) :
    ∃ acts', run (EngineLoop.act env cfg) (.init cfg m w) acts' = .ok l ∧
      (∀ n ∈ submits acts', Asked encode m acts n) ∧
      ((submits acts').map NewRequest.requestId).Sublist ((posts acts).map Prod.snd) := by
  induction acts using List.reverseRecOn generalizing l with
  | nil =>
    cases hrun
    exact ⟨[], rfl, nofun, List.Sublist.refl _⟩
  | append_singleton acts a ih =>
    rw [run_snoc] at hrun
    obtain ⟨l₀, hl₀, ha⟩ := exists_of_bind_ok hrun
    obtain ⟨acts', hacts', hok, hsub⟩ := ih hl₀
    have hok' : ∀ n ∈ submits acts', Asked encode m (acts ++ [a]) n := fun n hn =>
      (hok n hn).append [a]
    rw [posts_append, List.map_append]
    have hsub' := hsub.trans (List.sublist_append_left _ ((posts [a]).map Prod.snd))
    have hother : ∀ b : LoopAction, submits [b] = [] → l₀.act env cfg b = .ok l → ∃ acts',
        run (EngineLoop.act env cfg) (.init cfg m w) acts' = .ok l ∧
          (∀ n ∈ submits acts', Asked encode m (acts ++ [a]) n) ∧
          ((submits acts').map NewRequest.requestId).Sublist
            ((posts acts).map Prod.snd ++ (posts [a]).map Prod.snd) := by
      intro b hb hact
      refine ⟨acts' ++ [b], by rw [run_snoc, hacts']; exact hact, ?_, ?_⟩ <;>
        rw [submits_append, hb, List.append_nil]
      · exact hok'
      · exact hsub'
    cases a with
    | generate body rid now =>
      have hgood := (Good.init hm w).ops (loop_reach (.init hm w) hacts')
      have hfits : l₀.sched.manager.fitsEver = m.fitsEver := hgood.shape.fitsEver
      cases ha
      unfold EngineLoop.generate
      cases hreq : body.toRequest encode l₀.sched.manager rid now l₀.sched.next with
      | error e => exact ⟨acts', hacts', hok', hsub'⟩
      | ok n =>
        rw [toRequest_congr hfits] at hreq
        obtain rfl := toRequest_requestId hreq
        refine ⟨acts' ++ [.submit n], ?_, fun x hx => ?_, ?_⟩
        · rw [run_snoc, hacts']
          show Except.ok (l₀.submit cfg n).2 = _
          dsimp only
          split <;> rfl
        · rw [submits_append] at hx
          rcases List.mem_append.mp hx with hx | hx
          · exact hok' x hx
          · obtain rfl := List.mem_singleton.mp hx
            refine ⟨body, now, _, ?_, hreq⟩
            rw [posts_append]
            exact List.mem_append_right _ List.mem_cons_self
        · rw [submits_append, List.map_append]
          exact hsub.append (List.Sublist.refl _)
    | cancel r => exact hother (.cancel r) rfl ha
    | stop => exact hother .stop rfl ha
    | advance => exact hother .advance rfl ha

theorem serveRun_reach {acts : List ServerAction} : ∀ {l l' : EngineLoop σ}, Good cfg m l.point →
    run (EngineLoop.serve encode env cfg) l acts = .ok l' → Reach env cfg l.point l'.point := by
  induction acts with
  | nil =>
    rintro l l' - h
    cases h
    exact .refl
  | cons a acts ih =>
    intro l l' hgood h
    obtain ⟨l₁, ha, h⟩ := exists_of_bind_ok h
    have hreach := serve_reach hgood.placed ha
    exact hreach.trans (ih (hgood.ops hreach) h)

/-- What the handler lets in with a positive limit can be served. -/
theorem Asked.servable {acts : List ServerAction} {n : NewRequest} (hn : Asked encode m acts n)
    (hmax : ∀ b ∈ posts acts, 1 ≤ b.1.maxNewTokens) : n.Servable m := by
  obtain ⟨body, now, sink, hmem, hreq⟩ := hn
  have hmax := hmax _ hmem
  obtain ⟨ids, hids, hreq⟩ := exists_of_bind_ok hreq
  split at hreq
  · cases hreq
  · next hlen =>
    obtain ⟨hpos, hlt⟩ := not_not.mp hlen
    split at hreq
    · cases hreq
    · next hfit =>
      rw [← Except.ok.inj hreq]
      exact ⟨⟨hpos, Nat.le_of_lt_succ hlt, hmax⟩, eq_true_of_ne_false hfit⟩

/-! ## What the front door relies on the clients for -/

instance (body : GenerateIn) : Decidable body.HasVocab :=
  inferInstanceAs (Decidable (∀ tok ∈ body.promptTokenIds.getD [], InVocab tok))

/-- The clients ask for a token at least, with ids of the vocabulary, under ids of their own. -/
structure Posted (acts : List ServerAction) : Prop where
  maxNew_pos : ∀ b ∈ posts acts, 1 ≤ b.1.maxNewTokens
  hasVocab : ∀ b ∈ posts acts, b.1.HasVocab
  ids : ((posts acts).map Prod.snd).Nodup

theorem Posted.of_append {as bs : List ServerAction} (h : Posted (as ++ bs)) : Posted as where
  maxNew_pos b hb := h.maxNew_pos b (posts_append as bs ▸ List.mem_append_left _ hb)
  hasVocab b hb := h.hasVocab b (posts_append as bs ▸ List.mem_append_left _ hb)
  ids := by
    have hids := h.ids
    rw [posts_append, List.map_append] at hids
    exact hids.of_append_left

theorem Posted.inVocab {acts : List ServerAction} (h : Posted acts)
    (hencode : ∀ text, ∀ tok ∈ encode text, InVocab tok) {n : NewRequest}
    (hn : Asked encode m acts n) : n.InVocab := by
  obtain ⟨body, now, sink, hmem, hreq⟩ := hn
  exact toRequest_inVocab hencode hreq (h.hasVocab _ hmem)

/-- Every object of a running server is one the handler made. -/
theorem serve_sourced (hm : m.Fresh) {acts : List ServerAction} {l : EngineLoop σ}
    (hrun : run (EngineLoop.serve encode env cfg) (.init cfg m w) acts = .ok l) :
    ∃ src, Sourced src l.point ∧ ∀ r < l.sched.next, Asked encode m acts (src r) := by
  obtain ⟨acts', hacts', hok, -⟩ := serve_acts hm hrun
  obtain ⟨src, horigin⟩ := loop_sourced hm hacts'
  exact ⟨src, horigin.sourced, fun r hr => hok _ (horigin.mem hr)⟩

/-- The requests of a running server, one for each object. -/
structure Clients (encode : Text → List Token) (env : Env σ) (cfg : EngineConfig) (m : Manager)
    (w : σ) (acts : List ServerAction) (src : Ref → NewRequest) (l : EngineLoop σ) : Prop where
  reach : Reach env cfg (rest (.init cfg m w) []) l.point
  sourced : Sourced src l.point
  asked : ∀ r < l.sched.next, Asked encode m acts (src r)
  serving : Serving m src l.sched.next
  done : l.pc = .done → l.stop = true

theorem serve_clients (hm : m.Fresh) (hencode : ∀ text, ∀ tok ∈ encode text, InVocab tok)
    {acts : List ServerAction} {l : EngineLoop σ} (hposted : Posted acts)
    (hrun : run (EngineLoop.serve encode env cfg) (.init cfg m w) acts = .ok l) :
    ∃ src, Clients encode env cfg m w acts src l := by
  obtain ⟨acts', hacts', hok, hsub⟩ := serve_acts hm hrun
  obtain ⟨src, horigin⟩ := loop_sourced hm hacts'
  have hasked : ∀ r < l.sched.next, Asked encode m acts (src r) := fun r hr =>
    hok _ (horigin.mem hr)
  refine ⟨src, loop_reach (.init hm w) hacts', horigin.sourced, hasked, ⟨fun r hr => ?_,
    fun r hr => ?_, horigin.ids (hposted.ids.sublist hsub)⟩, stop_of_done hacts'⟩
  · exact (hasked r hr).servable hposted.maxNew_pos
  · exact hposted.inVocab hencode (hasked r hr)

end LlmServe
