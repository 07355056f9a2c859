import LlmServe.Engine.NextToken
import LlmServe.Spec.ForwardPass

/-!
# Greedy decoding

When every forward pass tells the next token of each row (`TellsNext`), the output of every request
is what `next` appends to its prompt, however the request was batched, evicted and recomputed
(`follows_op`); a request that ended by itself stopped at the first output with an end reason
(`Good.firstStop`).

The world `Env.ofNext` tells the next token because it remembers what each request was fed (`Seen`).
-/

namespace LlmServe

open Infra Point

variable {σ : Type} {env : Env σ} {cfg : EngineConfig} {adm : Point σ → Ref → Prop} {m : Manager}
  {next : List Token → Token} {p p' : Point σ}

/-- The forward pass, run at `p`, answers with the next token of each request. -/
def TellsNext (env : Env σ) (next : List Token → Token) (p : Point σ) : Prop :=
  ∀ p' batch rows nxt, Pass env p p' batch rows nxt →
    nxt = batch.map fun r => next (p.sched.heap r).tokens

structure Follows (next : List Token → Token) (p : Point σ) : Prop where
  output : ∀ r, (p.sched.heap r).outputTokenIds
    = unroll next (p.sched.heap r).promptTokenIds (p.sched.heap r).outputTokenIds.length
  due : ∀ x ∈ p.due, x.2 = next (p.sched.heap x.1).tokens

theorem Follows.init (m : Manager) (w : σ) : Follows next (.rest (.init cfg m w) []) :=
  ⟨fun _ => rfl, nofun⟩

theorem Good.prompt_or_nil (h : Good cfg m p) (hq : Quiet env p p') (r : Ref) :
    (p.sched.heap r).outputTokenIds = [] ∨
      (p'.sched.heap r).promptTokenIds = (p.sched.heap r).promptTokenIds := by
  by_cases hr : r < p.sched.next
  · exact Or.inr (hq.prompt r hr)
  · exact Or.inl ((h.facts r).ending.unsubmitted (Or.inl (phase_absent h.placed hr)))

/-- **Outputs keep following `next`.** -/
theorem follows_op (hop : Op env cfg adm p p') (hgood : Good cfg m p) (htell : TellsNext env next p)
    (h : Follows next p) : Follows next p' := by
  rcases op_pass_or_quiet hop hgood with ⟨batch, rows, nxt, hpass⟩ | hq
  · refine ⟨fun r => ?_, ?_⟩
    · rw [hpass.heap]
      exact h.output r
    · -- what is now due is what the model told
      rw [hpass.due', hpass.heap, htell p' batch rows nxt hpass, ← List.map_prod_left_eq_zip]
      intro x hx
      obtain ⟨r, -, rfl⟩ := List.mem_map.mp hx
      rfl
  · have hsame : ∀ r, (p'.sched.heap r).outputTokenIds = (p.sched.heap r).outputTokenIds →
        (p'.sched.heap r).outputTokenIds = unroll next (p'.sched.heap r).promptTokenIds
          (p'.sched.heap r).outputTokenIds.length := by
      intro r ho
      rcases hgood.prompt_or_nil hq r with hnil | hprompt
      · rw [ho, hnil]
        rfl
      · rw [ho, hprompt]
        exact h.output r
    rcases hq.due with hdue | ⟨r, tok, now, hdue, hheap⟩
    · refine ⟨fun x => hsame x (hq.output hdue x), fun x hx => ?_⟩
      rw [hdue] at hx
      have hlt := hgood.placed.lt_next x.1
        (mem_placed_of_held (hgood.placed.due_mem_held (List.mem_map_of_mem hx)))
      rw [h.due x hx, Request.tokens, Request.tokens, hq.prompt x.1 hlt, hq.output hdue x.1]
    · -- `_emit` appends the token of `r`; the others that are due keep theirs
      have hnd : (r :: p'.dueRefs).Nodup := by
        have hnd := hgood.placed.due_nodup
        rwa [Point.dueRefs, hdue, List.map_cons] at hnd
      refine ⟨fun x => ?_, fun x hx => ?_⟩
      · by_cases hx : x = r
        · subst hx
          have htok := h.due (x, tok) (hdue ▸ List.mem_cons_self)
          rw [hheap, Function.update_self, Request.emit_outputTokenIds,
            Request.emit_promptTokenIds]
          exact unroll_snoc (h.output x) htok
        · exact hsame x (by rw [hheap, Function.update_of_ne hx])
      · have hne : x.1 ≠ r := by
          rintro rfl
          exact (List.nodup_cons.mp hnd).1 (List.mem_map_of_mem hx)
        rw [hheap, Function.update_of_ne hne]
        exact h.due x (hdue ▸ List.mem_cons_of_mem _ hx)

/-- **A request that ended by itself stopped where it had to.** -/
theorem Good.firstStop (hgood : Good cfg m p) (h : Follows next p) {r : Ref}
    (hfin : (p.sched.heap r).finishReason ≠ none)
    (hself : (p.sched.heap r).finishReason ≠ some .cancelled) :
    Request.Ends next (p.sched.heap r).promptTokenIds (p.sched.heap r).maxNewTokens
      (p.sched.heap r).ignoreEos (p.sched.heap r).outputTokenIds where
  unrolled := h.output r
  stops := (hgood.facts r).ending.reason hself ▸ hfin
  goes := fun pre hpre hne => not_not.mpr ((hgood.facts r).ending.earlier pre hpre hne)

/-! ## A world that remembers the tokens -/

/-- The world has seen of each request what it was fed. -/
def Seen (p : Point History) : Prop :=
  ∀ r, (p.phase r).Fed → p.sched.world.seen r = (p.view r).cached

theorem feed_notMem {r : Ref} : ∀ {rows : List Row} (seen : Ref → List Token),
    r ∉ rows.map Row.req → rows.foldl History.feed seen r = seen r
  | [], _, _ => rfl
  | row :: rows, seen, hr => by
    rw [List.map_cons, List.mem_cons, not_or] at hr
    rw [List.foldl_cons, feed_notMem _ hr.2, History.feed, Function.update_of_ne hr.1]

theorem feed_mem {row : Row} : ∀ {rows : List Row} (seen : Ref → List Token),
    (rows.map Row.req).Nodup → row ∈ rows →
    rows.foldl History.feed seen row.req = (seen row.req).take row.start ++ row.tokens
  | x :: rows, seen, hnd, hrow => by
    obtain ⟨hx, hnd⟩ := List.nodup_cons.mp hnd
    rw [List.foldl_cons]
    rcases List.mem_cons.mp hrow with rfl | hrow
    · rw [feed_notMem _ hx, History.feed, Function.update_self]
    · have hne : row.req ≠ x.req := fun he => hx (he ▸ List.mem_map_of_mem hrow)
      rw [feed_mem _ hnd hrow, History.feed, Function.update_of_ne hne]

/-- After a forward pass the world has seen all tokens of its requests. -/
theorem seen_pass {p p' : Point History} {batch : List Ref} {rows : List Row} {nxt : List Token}
    (hpass : Pass (Env.ofNext next) p p' batch rows nxt) (h : Seen p) :
    (∀ r ∈ batch, p'.sched.world.seen r = (p.sched.heap r).tokens) ∧
      (∀ r ∉ batch, p'.sched.world.seen r = p.sched.world.seen r) ∧
      nxt = batch.map fun r => next (p'.sched.world.seen r) := by
  have hreq := hpass.rows_req
  have hans := hpass.answer
  simp only [Env.ofNext, Except.ok.injEq, Prod.mk.injEq] at hans
  obtain ⟨hnxt, hw⟩ := hans
  have hseen : p'.sched.world.seen = rows.foldl History.feed p.sched.world.seen := by rw [← hw]
  refine ⟨fun r hr => ?_, fun r hr => ?_, ?_⟩
  · obtain ⟨row, hrow, hof⟩ := exists_of_forall₂ hpass.row hr
    obtain rfl := hof.req
    rw [hseen, feed_mem _ (hreq ▸ hpass.nodup) hrow]
    rcases hof.cached with hstart | ⟨hfed, hcached⟩
    · conv_rhs => rw [hof.tokens, hstart]
      rw [hstart, List.take_zero, List.take_zero]
    · rw [h row.req hfed, ← hcached, List.take_take, Nat.min_self, ← hof.tokens]
  · rw [hseen, feed_notMem _ (hreq ▸ hr)]
  · rw [← hreq, List.map_map, ← hnxt, hseen]
    rfl

theorem seen_op {adm : Point History → Ref → Prop} {p p' : Point History}
    (hop : Op (Env.ofNext next) cfg adm p p')
    (hgood : Good cfg m p) (h : Seen p) : Seen p' := by
  intro r hr
  rcases op_pass_or_quiet hop hgood with ⟨batch, rows, nxt, hpass⟩ | hq
  · obtain ⟨hin, hout, -⟩ := seen_pass hpass h
    rw [hpass.cached r]
    by_cases hb : r ∈ batch
    · rw [if_pos hb, hin r hb]
    · rw [if_neg hb, hout r hb, h r (hpass.fed r hr hb)]
  · have hk := hgood.keeps hop hq hr
    have hworld : p'.sched.world.seen = p.sched.world.seen := by
      rcases hq.world with he | he <;> rw [he]
      rfl
    rw [hworld, hk.cached, h r hk.phase]

/-- **The deterministic world tells the next token.** -/
theorem Seen.tellsNext {p : Point History} (h : Seen p) : TellsNext (Env.ofNext next) next p := by
  intro p' batch rows nxt hpass
  obtain ⟨hin, -, rfl⟩ := seen_pass hpass h
  exact List.map_congr_left fun r hr => by rw [hin r hr]

/-- In the deterministic world every output follows `next`. -/
theorem follows_ops {adm : Point History → Ref → Prop} {p : Point History} (hm : m.Fresh)
    (w : History)
    (hops : Ops (Env.ofNext next) cfg adm (rest (.init cfg m w) []) p) :
    Follows next p := by
  have hstep : ∀ x y, Op (Env.ofNext next) cfg adm x y →
      Good cfg m x ∧ Seen x ∧ Follows next x → Good cfg m y ∧ Seen y ∧ Follows next y := by
    rintro x y hop ⟨hgood, hseen, hfol⟩
    exact ⟨hgood.op hop, seen_op hop hgood hseen, follows_op hop hgood hseen.tellsNext hfol⟩
  have hinit : Seen (rest (.init cfg m w) []) := by
    rintro r (hr | hr) <;> cases hr
  exact (reach_invariant hstep hops ⟨.init hm w, hinit, .init m w⟩).2.2

end LlmServe
