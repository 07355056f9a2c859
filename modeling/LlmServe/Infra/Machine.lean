import Mathlib.Logic.Relation
import Mathlib.Data.List.Chain
import Mathlib.Data.List.Induction
import Mathlib.Algebra.Order.Group.Nat

/-!
# Runs of a fallible step function, and reachability

Two ways to run a machine, and the induction that goes with each, stated once.

* `run step s as` feeds a list of actions to a step that may fail.
* `Relation.ReflTransGen` is the closure of a small-step relation.

`Outcome` relates the two: a program that raises or returns, read as small steps. `loop` is
`while more s: s = next s`, with a measure that bounds the number of rounds.
-/

namespace Infra

/-! ## `Except` -/

theorem exists_of_bind_ok {ε α β : Type} {x : Except ε α} {f : α → Except ε β} {b : β}
    (h : x >>= f = .ok b) : ∃ a, x = .ok a ∧ f a = .ok b := by
  cases x with
  | error e => cases h
  | ok a => exact ⟨a, rfl, h⟩

theorem exists_bind_ok {ε α β : Type} {x : Except ε α} {f : α → Except ε β} {a : α}
    (hx : x = .ok a) (hf : ∃ b, f a = .ok b) : ∃ b, x >>= f = .ok b := by
  rw [hx]
  exact hf

theorem or_of_bind_error {ε α β : Type} {x : Except ε α} {f : α → Except ε β} {e : ε}
    (h : x >>= f = .error e) : x = .error e ∨ ∃ a, x = .ok a ∧ f a = .error e := by
  cases x with
  | error e' =>
    cases h
    exact Or.inl rfl
  | ok a => exact Or.inr ⟨a, rfl, h⟩

theorem exists_of_map_ok {ε α β : Type} {x : Except ε α} {f : α → β} {b : β}
    (h : x.map f = .ok b) : ∃ a, x = .ok a ∧ f a = b := by
  cases x with
  | error e => cases h
  | ok a => exact ⟨a, rfl, by injection h⟩

/-- A computation that succeeds, and what follows from its success. -/
theorem exists_ok_and {ε α : Type} {x : Except ε α} {P : α → Prop} (h : x.isOk = true)
    (hP : ∀ a, x = .ok a → P a) : ∃ a, x = .ok a ∧ P a := by
  cases x with
  | error e => cases h
  | ok a => exact ⟨a, rfl, hP a rfl⟩

section Decide

variable {ε α : Type} (x : Except ε α)

instance decidableEqError [DecidableEq ε] (e : ε) : Decidable (x = .error e) :=
  match x with
  | .error e' => decidable_of_iff (e' = e) ⟨congrArg _, fun h => by injection h⟩
  | .ok _ => isFalse nofun

instance decidableExistsOk {P : α → Prop} [DecidablePred P] : Decidable (∃ a, x = .ok a ∧ P a) :=
  match x with
  | .error _ => isFalse nofun
  | .ok a => decidable_of_iff (P a)
      ⟨fun h => ⟨a, rfl, h⟩, fun ⟨_, he, h⟩ => by injection he with he; exact he ▸ h⟩

instance decidableForallOk {P : α → Prop} [DecidablePred P] : Decidable (∀ a, x = .ok a → P a) :=
  match x with
  | .error _ => isTrue nofun
  | .ok a => decidable_of_iff (P a)
      ⟨fun h _ he => by injection he with he; exact he ▸ h, fun h => h a rfl⟩

end Decide

/-- A `mapM` that succeeds maps element by element. -/
theorem forall₂_of_mapM_ok {ε α β : Type} {f : α → Except ε β} :
    ∀ {l : List α} {l' : List β}, l.mapM f = .ok l' →
      List.Forall₂ (fun a b => f a = .ok b) l l'
  | [], l', h => by
    rw [List.mapM_nil] at h
    cases h
    exact .nil
  | a :: l, l', h => by
    rw [List.mapM_cons] at h
    obtain ⟨b, hb, h⟩ := exists_of_bind_ok h
    obtain ⟨bs, hbs, h⟩ := exists_of_bind_ok h
    cases h
    exact .cons hb (forall₂_of_mapM_ok hbs)

/-- A `mapM` that succeeds maps a function that each success determines. -/
theorem eq_map_of_mapM_ok {ε α β : Type} {f : α → Except ε β} {g : α → β} {l : List α} {l' : List β}
    (h : l.mapM f = .ok l') (hg : ∀ a ∈ l, ∀ b, f a = .ok b → b = g a) : l' = l.map g := by
  have hall := forall₂_of_mapM_ok h
  clear h
  induction hall with
  | nil => rfl
  | @cons a b l l' hab _ ih =>
    rw [List.map_cons, ← hg a List.mem_cons_self b hab,
      ← ih fun x hx => hg x (List.mem_cons_of_mem _ hx)]

/-- A `mapM` none of whose elements raises. -/
theorem mapM_ok_of_forall {ε α β : Type} {f : α → Except ε β} {g : α → β} {l : List α}
    (h : ∀ a ∈ l, f a = .ok (g a)) : l.mapM f = .ok (l.map g) := by
  induction l with
  | nil => rfl
  | cons a l ih =>
    rw [List.mapM_cons, h a List.mem_cons_self, ih fun x hx => h x (List.mem_cons_of_mem _ hx)]
    rfl

/-- The partner of an element. -/
theorem exists_of_forall₂ {α β : Type} {R : α → β → Prop} {l : List α} {l' : List β}
    (h : List.Forall₂ R l l') {a : α} (ha : a ∈ l) : ∃ b ∈ l', R a b := by
  induction h with
  | nil => cases ha
  | @cons x y l l' hxy _ ih =>
    rcases List.mem_cons.mp ha with rfl | ha
    · exact ⟨y, List.mem_cons_self, hxy⟩
    · obtain ⟨b, hb, h⟩ := ih ha
      exact ⟨b, List.mem_cons_of_mem _ hb, h⟩

/-! ## Runs -/

section Run

variable {S A E : Type} (step : S → A → Except E S)

/-- Take the actions in order; the first error ends the run. -/
def run : S → List A → Except E S
  | s, [] => .ok s
  | s, a :: as => step s a >>= fun s' => run s' as

@[simp] theorem run_nil (s : S) : run step s [] = .ok s := rfl

theorem run_cons (s : S) (a : A) (as : List A) :
    run step s (a :: as) = step s a >>= fun s' => run step s' as := rfl

theorem run_step {s s' : S} {a : A} (h : step s a = .ok s') (as : List A) :
    run step s (a :: as) = run step s' as := by
  rw [run_cons, h]
  rfl

theorem run_append (s : S) (as bs : List A) :
    run step s (as ++ bs) = run step s as >>= fun s' => run step s' bs := by
  induction as generalizing s with
  | nil => rfl
  | cons a as ih =>
    rw [List.cons_append, run_cons, run_cons]
    cases step s a with
    | error e => rfl
    | ok s' => exact ih s'

theorem run_snoc (s : S) (as : List A) (a : A) :
    run step s (as ++ [a]) = run step s as >>= fun s' => step s' a := by
  rw [run_append]
  congr 1
  funext s'
  rw [run_cons]
  cases step s' a <;> rfl

variable {step}

/--
**An invariant of the steps is an invariant of the runs.** `P` may look at the actions taken so
far, and the step lemma may use that the whole list of actions is one the run allows (`Q`).
-/
theorem run_invariant {P : List A → S → Prop} {Q : List A → Prop} {s₀ : S}
    (hpre : ∀ as a, Q (as ++ [a]) → Q as) (h0 : P [] s₀)
    (hstep : ∀ as a s s', Q (as ++ [a]) → run step s₀ as = .ok s → P as s →
      step s a = .ok s' → P (as ++ [a]) s') :
    ∀ {as : List A} {s : S}, Q as → run step s₀ as = .ok s → P as s := by
  intro as
  induction as using List.reverseRecOn with
  | nil =>
    intro s _ h
    cases h
    exact h0
  | append_singleton as a ih =>
    intro s' hq h
    rw [run_snoc] at h
    obtain ⟨s, hs, ha⟩ := exists_of_bind_ok h
    exact hstep as a s s' hq hs (ih (hpre as a hq) hs) ha

/--
**A measure that ticks use up.** Until `done` no action raises the measure and a tick lowers it, and
`done` stays: then more ticks than the measure allows lead to `done`, whatever else happens in
between.
-/
theorem run_exhausts {P done : S → Prop} {ok : A → Prop} {tick : A → Bool} {μ : S → Nat}
    (hstep : ∀ s a, P s → ok a → ∃ s', step s a = .ok s' ∧ P s' ∧ (done s → done s') ∧
      (¬done s → μ s' ≤ μ s ∧ (tick a = true → μ s' < μ s))) :
    ∀ (as : List A) (s : S), (∀ a ∈ as, ok a) → P s →
      ∃ s', run step s as = .ok s' ∧ P s' ∧ (μ s < as.countP tick → done s') := by
  have hrun : ∀ (as : List A) (s : S), (∀ a ∈ as, ok a) → P s →
      ∃ s', run step s as = .ok s' ∧ P s' ∧ (done s → done s') ∧
        (done s' ∨ μ s' + as.countP tick ≤ μ s) := by
    intro as
    induction as with
    | nil => exact fun s _ hs => ⟨s, rfl, hs, fun h => h, Or.inr le_rfl⟩
    | cons a as ih =>
      intro s hok hs
      obtain ⟨s₁, ha, hs₁, hkeep, hless⟩ := hstep s a hs (hok a List.mem_cons_self)
      obtain ⟨s₂, has, hs₂, hkeep₂, hcount⟩ :=
        ih s₁ (fun b hb => hok b (List.mem_cons_of_mem _ hb)) hs₁
      refine ⟨s₂, by rw [run_step step ha, has], hs₂, fun hd => hkeep₂ (hkeep hd), ?_⟩
      by_cases hd : done s
      · exact Or.inl (hkeep₂ (hkeep hd))
      · obtain ⟨hle, hlt⟩ := hless hd
        refine hcount.imp_right fun hc => ?_
        rw [List.countP_cons]
        split
        · next ht =>
          have hlt := hlt ht
          omega
        · omega
  intro as s hok hs
  obtain ⟨s', h, hs', -, hcount⟩ := hrun as s hok hs
  refine ⟨s', h, hs', fun hlt => hcount.resolve_right ?_⟩
  omega

end Run

/-! ## Reachability -/

/-- An invariant of the small steps holds wherever they lead. -/
theorem reach_invariant {α : Type} {R : α → α → Prop} {P : α → Prop}
    (hstep : ∀ x y, R x y → P x → P y) {a b : α} (h : Relation.ReflTransGen R a b) (ha : P a) :
    P b := by
  induction h with
  | refl => exact ha
  | tail _ hxy ih => exact hstep _ _ hxy ih

/-- Along a run, a property that a step keeps exactly when `C` holds is kept exactly when every
step has `C`. `Q` is what is known anyway. -/
theorem forall_chain_iff {α : Type} {R C : α → α → Prop} {P Q : α → Prop}
    (hQ : ∀ x y, Q x → R x y → Q y) (hP : ∀ x y, Q x → R x y → P x → (P y ↔ C x y)) :
    ∀ {l : List α} {a : α}, Q a → P a → (a :: l).IsChain R →
      ((∀ x ∈ a :: l, P x) ↔ (a :: l).IsChain C)
  | [], a, _, ha, _ => iff_of_true (by simpa using ha) (.singleton a)
  | b :: l, a, hq, ha, h => by
    obtain ⟨hab, h⟩ := List.isChain_cons_cons.mp h
    have ih := fun hb : P b => forall_chain_iff hQ hP (hQ a b hq hab) hb h
    rw [List.isChain_cons_cons, List.forall_mem_cons]
    constructor
    · rintro ⟨-, hall⟩
      have hb : P b := hall b List.mem_cons_self
      exact ⟨(hP a b hq hab ha).mp hb, (ih hb).mp hall⟩
    · rintro ⟨hc, hchain⟩
      exact ⟨ha, (ih ((hP a b hq hab ha).mpr hc)).mpr hchain⟩

/-! ## Programs made of small steps -/

/--
A fallible computation read as small steps from `x₀`: if it returns `b`, the steps lead to a state
that `Q` relates to `b`; if it raises `e`, they lead to a state where `F` allows that.
-/
def Outcome {α β E : Type} (R : α → α → Prop) (F : α → E → Prop) (x₀ : α) (c : Except E β)
    (Q : β → α → Prop) : Prop :=
  match c with
  | .ok b => ∃ x, Relation.ReflTransGen R x₀ x ∧ Q b x
  | .error e => ∃ x, Relation.ReflTransGen R x₀ x ∧ F x e

namespace Outcome

variable {α β γ E : Type} {R : α → α → Prop} {F : α → E → Prop} {x₀ x₁ : α}
  {Q : β → α → Prop} {c : Except E β}

theorem pure {b : β} (hx : Relation.ReflTransGen R x₀ x₁) (hQ : Q b x₁) :
    Outcome R F x₀ (.ok b) Q := ⟨x₁, hx, hQ⟩

theorem raise {e : E} (hx : Relation.ReflTransGen R x₀ x₁) (hF : F x₁ e) :
    Outcome R F x₀ (.error e) Q := ⟨x₁, hx, hF⟩

/-- Small steps taken before. -/
theorem after (hx : Relation.ReflTransGen R x₀ x₁) (h : Outcome R F x₁ c Q) :
    Outcome R F x₀ c Q := by
  cases c with
  | ok b =>
    obtain ⟨x, hx', hQ⟩ := h
    exact ⟨x, hx.trans hx', hQ⟩
  | error e =>
    obtain ⟨x, hx', hF⟩ := h
    exact ⟨x, hx.trans hx', hF⟩

theorem bind {f : β → Except E γ} {Q' : γ → α → Prop} (h : Outcome R F x₀ c Q)
    (hf : ∀ b x, c = .ok b → Relation.ReflTransGen R x₀ x → Q b x → Outcome R F x (f b) Q') :
    Outcome R F x₀ (c >>= f) Q' := by
  cases c with
  | ok b =>
    obtain ⟨x, hx, hQ⟩ := h
    exact (hf b x rfl hx hQ).after hx
  | error e => exact h

theorem imp {Q' : β → α → Prop} (h : Outcome R F x₀ c Q)
    (hQ : ∀ b x, c = .ok b → Q b x → Q' b x) : Outcome R F x₀ c Q' := by
  cases c with
  | ok b =>
    obtain ⟨x, hx, hq⟩ := h
    exact ⟨x, hx, hQ b x rfl hq⟩
  | error e => exact h

end Outcome

/-! ## Loops -/

section Loop

variable {S E : Type} (more : S → Bool) (next : S → Except E S)

/-- `while more s: s = next s`, for at most `fuel` rounds; `none` when the fuel runs out. -/
def loop : Nat → S → Except E (Option S)
  | 0, s => .ok (if more s then none else some s)
  | fuel + 1, s => if more s then next s >>= fun s' => loop fuel s' else .ok (some s)

variable {more next}

/-- A loop that ends, ends where it has to, with what every round keeps. -/
theorem loop_some {P : S → Prop}
    (hround : ∀ s s', P s → more s = true → next s = .ok s' → P s') {t : S} :
    ∀ (fuel : Nat) (s : S), P s → loop more next fuel s = .ok (some t) → P t ∧ more t = false
  | 0, s, hs, h => by
    rw [loop] at h
    cases hm : more s with
    | false =>
      rw [hm] at h
      cases h
      exact ⟨hs, hm⟩
    | true =>
      rw [hm] at h
      cases h
  | fuel + 1, s, hs, h => by
    rw [loop] at h
    cases hm : more s with
    | false =>
      rw [hm] at h
      cases h
      exact ⟨hs, hm⟩
    | true =>
      rw [if_pos hm] at h
      obtain ⟨s', hn, h⟩ := exists_of_bind_ok h
      exact loop_some hround fuel s' (hround s s' hs hm hn) h

/--
**A loop whose rounds succeed and decrease a measure ends within the measure's rounds**, in a
state that still has the invariant.
-/
theorem loop_terminates {P : S → Prop} {μ : S → Nat}
    (hround : ∀ s, P s → more s = true → ∃ s', next s = .ok s' ∧ P s' ∧ μ s' < μ s) :
    ∀ (fuel : Nat) (s : S), P s → μ s ≤ fuel →
      ∃ s', loop more next fuel s = .ok (some s') ∧ P s' ∧ more s' = false
  | 0, s, hs, hμ => by
    cases hm : more s with
    | false => exact ⟨s, by simp [loop, hm], hs, hm⟩
    | true =>
      obtain ⟨s', -, -, hlt⟩ := hround s hs hm
      omega
  | fuel + 1, s, hs, hμ => by
    cases hm : more s with
    | false => exact ⟨s, by simp [loop, hm], hs, hm⟩
    | true =>
      obtain ⟨s', hn, hs', hlt⟩ := hround s hs hm
      obtain ⟨t, ht, hpt, hmt⟩ := loop_terminates hround fuel s' hs' (by omega)
      exact ⟨t, by rw [loop, if_pos hm, hn]; exact ht, hpt, hmt⟩

end Loop

end Infra
