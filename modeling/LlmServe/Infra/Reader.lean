import Mathlib.Data.List.TakeWhile

/-!
# Readers

A reader takes a value off the front of a list. It only looks at what it takes and at the symbol
behind it, so a reading does not change when the list goes on (`extend`); a reader that knows its
own end does not even look at that symbol (`Closed`).

`Reads p ok w b` says that `p` reads `b` from `w` in front of whatever is `ok`.
-/

namespace Infra

variable {α β γ : Type}

structure Reader (α β : Type) where
  run : List α → Option (β × List α)
  suffix : ∀ {xs b rest}, run xs = some (b, rest) → rest <:+ xs
  extend : ∀ {xs b rest} (ys : List α), run xs = some (b, rest) → rest ≠ [] →
    run (xs ++ ys) = some (b, rest ++ ys)

namespace Reader

/-! ## Building readers -/

instance instMonad : Monad (Reader α) where
  pure b :=
    { run := fun xs => some (b, xs)
      suffix := by
        intro xs _ rest h
        cases h
        exact List.suffix_rfl
      extend := by
        intro xs _ rest ys h _
        cases h
        rfl }
  bind p q :=
    { run := fun xs => (p.run xs).bind fun r => (q r.1).run r.2
      suffix := by
        intro xs c rest h
        obtain ⟨⟨b, mid⟩, hp, hq⟩ := Option.bind_eq_some_iff.mp h
        exact ((q b).suffix hq).trans (p.suffix hp)
      extend := by
        intro xs c rest ys h hrest
        obtain ⟨⟨b, mid⟩, hp, hq⟩ := Option.bind_eq_some_iff.mp h
        have hmid : mid ≠ [] := by
          rintro rfl
          exact hrest (List.suffix_nil.mp ((q b).suffix hq))
        rw [p.extend ys hp hmid]
        exact (q b).extend ys hq hrest }

@[simp] theorem run_pure (b : β) (xs : List α) :
    (pure b : Reader α β).run xs = some (b, xs) := rfl

@[simp] theorem run_bind (p : Reader α β) (q : β → Reader α γ) (xs : List α) :
    (p >>= q).run xs = (p.run xs).bind fun r => (q r.1).run r.2 := rfl

@[simp] theorem run_map (f : β → γ) (p : Reader α β) (xs : List α) :
    (f <$> p).run xs = (p.run xs).bind fun r => some (f r.1, r.2) := rfl

/-- Nothing can be read here. -/
def fail : Reader α β where
  run _ := none
  suffix := by
    intro _ _ _ h
    cases h
  extend := by
    intro _ _ _ _ h
    cases h

@[simp] theorem run_fail (xs : List α) : (fail : Reader α β).run xs = none := rfl

/-- One symbol, whatever it is. -/
def any : Reader α α where
  run
    | [] => none
    | x :: xs => some (x, xs)
  suffix := by
    intro xs _ _ h
    cases xs with
    | nil => cases h
    | cons x xs =>
      cases h
      exact List.suffix_cons _ _
  extend := by
    intro xs _ _ ys h _
    cases xs with
    | nil => cases h
    | cons x xs =>
      cases h
      rfl

@[simp] theorem run_any_nil : (any : Reader α α).run [] = none := rfl

@[simp] theorem run_any_cons (x : α) (xs : List α) : any.run (x :: xs) = some (x, xs) := rfl

/-- As many symbols as are `f`. -/
def span (f : α → Bool) : Reader α (List α) where
  run xs := some (xs.takeWhile f, xs.dropWhile f)
  suffix := by
    intro xs _ _ h
    cases h
    exact List.dropWhile_suffix f
  extend := by
    intro xs b rest ys h hrest
    cases h
    have hlt : (xs.takeWhile f).length ≠ xs.length := by
      intro heq
      have hsplit := congrArg List.length (List.takeWhile_append_dropWhile (p := f) (l := xs))
      rw [List.length_append, heq] at hsplit
      exact hrest (List.eq_nil_of_length_eq_zero (by omega))
    have hempty : (List.dropWhile f xs).isEmpty = false := by simpa using hrest
    rw [List.takeWhile_append, List.dropWhile_append, if_neg hlt, hempty]
    rfl

@[simp] theorem run_span (f : α → Bool) (xs : List α) :
    (span f).run xs = some (xs.takeWhile f, xs.dropWhile f) := rfl

/-- `p` if the next symbol is `f`, and `q` if it is not or there is none. -/
def ifNext (f : α → Bool) (p q : Reader α β) : Reader α β where
  run
    | [] => q.run []
    | x :: xs => if f x then p.run (x :: xs) else q.run (x :: xs)
  suffix := by
    intro xs b rest h
    cases xs with
    | nil => exact q.suffix h
    | cons x xs =>
      dsimp only at h
      split at h
      · exact p.suffix h
      · exact q.suffix h
  extend := by
    intro xs b rest ys h hrest
    cases xs with
    | nil => exact absurd (List.suffix_nil.mp (q.suffix h)) hrest
    | cons x xs =>
      dsimp only [List.cons_append] at h ⊢
      split at h
      · next hx =>
        rw [if_pos hx]
        exact p.extend ys h hrest
      · next hx =>
        rw [if_neg hx]
        exact q.extend ys h hrest

@[simp] theorem run_ifNext_nil (f : α → Bool) (p q : Reader α β) :
    (ifNext f p q).run [] = q.run [] := rfl

@[simp] theorem run_ifNext_cons (f : α → Bool) (p q : Reader α β) (x : α) (xs : List α) :
    (ifNext f p q).run (x :: xs) = if f x then p.run (x :: xs) else q.run (x :: xs) := rfl

/-! ## Loops -/

/-- One turn of a loop that goes on as `again`: as long as `step` gives something and gets on. -/
def turn (step : Reader α (Option β)) (again : List α → Option (List β × List α))
    (xs : List α) : Option (List β × List α) :=
  match step.run xs with
  | none => none
  | some (none, rest) => some ([], rest)
  | some (some b, rest) =>
    if rest.length < xs.length then (again rest).map fun r => (b :: r.1, r.2) else none

def loopRun (step : Reader α (Option β)) : Nat → List α → Option (List β × List α)
  | 0, _ => none
  | n + 1, xs => turn step (loopRun step n) xs

section

variable (step : Reader α (Option β)) {xs rest : List α} {b : β}
  {again again' : List α → Option (List β × List α)} {r : List β × List α}

theorem turn_none (h : step.run xs = none) : turn step again xs = none := by
  simp [turn, h]

theorem turn_stop (h : step.run xs = some (none, rest)) : turn step again xs = some ([], rest) := by
  simp [turn, h]

theorem turn_go (h : step.run xs = some (some b, rest)) (hlt : rest.length < xs.length) :
    turn step again xs = (again rest).map fun r => (b :: r.1, r.2) := by
  simp [turn, h, hlt]

/-- What a turn that gave something did. -/
theorem turn_cases (h : turn step again xs = some r) :
    step.run xs = some (none, r.2) ∧ r.1 = [] ∨
      ∃ b rest bs, step.run xs = some (some b, rest) ∧ rest.length < xs.length ∧
        again rest = some (bs, r.2) ∧ r.1 = b :: bs := by
  cases hs : step.run xs with
  | none =>
    rw [turn_none step hs] at h
    cases h
  | some p =>
    obtain ⟨o, rest⟩ := p
    cases o with
    | none =>
      rw [turn_stop step hs] at h
      cases h
      exact .inl ⟨rfl, rfl⟩
    | some b =>
      by_cases hlt : rest.length < xs.length
      · rw [turn_go step hs hlt] at h
        obtain ⟨r', hr', rfl⟩ := Option.map_eq_some_iff.mp h
        exact .inr ⟨b, rest, r'.1, rfl, hlt, hr', rfl⟩
      · simp [turn, hs, hlt] at h

/-- A turn only asks how the loop goes on behind fewer symbols. -/
theorem turn_congr (h : ∀ rest, rest.length < xs.length → again rest = again' rest) :
    turn step again xs = turn step again' xs := by
  unfold turn
  split
  · rfl
  · rfl
  · split
    · next hlt => rw [h _ hlt]
    · rfl

/-- Any fuel over the length will do. -/
theorem loopRun_eq : ∀ {n m : Nat} {xs : List α}, xs.length < n → xs.length < m →
    loopRun step n xs = loopRun step m xs
  | n + 1, m + 1, xs, hn, hm => by
    rw [loopRun, loopRun]
    exact turn_congr step fun rest hlt => loopRun_eq (by omega) (by omega)

theorem loopRun_length (xs : List α) : loopRun step (xs.length + 1) xs
    = turn step (fun rest => loopRun step (rest.length + 1) rest) xs := by
  rw [loopRun]
  exact turn_congr step fun rest hlt => loopRun_eq step hlt (Nat.lt_succ_self _)

theorem loopRun_suffix : ∀ {n : Nat} {xs : List α} {bs : List β} {rest : List α},
    loopRun step n xs = some (bs, rest) → rest <:+ xs
  | n + 1, xs, bs, rest, h => by
    rw [loopRun] at h
    obtain ⟨hs, -⟩ | ⟨b, mid, bs', hs, -, hgo, -⟩ := turn_cases step h
    · exact step.suffix hs
    · exact (loopRun_suffix hgo).trans (step.suffix hs)

theorem loopRun_extend (ys : List α) : ∀ {n : Nat} {xs : List α} {bs : List β} {rest : List α},
    loopRun step n xs = some (bs, rest) → rest ≠ [] →
    loopRun step (n + ys.length) (xs ++ ys) = some (bs, rest ++ ys)
  | n + 1, xs, bs, rest, h, hrest => by
    rw [loopRun] at h
    rw [Nat.add_right_comm, loopRun]
    obtain ⟨hs, rfl⟩ | ⟨b, mid, bs', hs, hlt, hgo, rfl⟩ := turn_cases step h
    · exact turn_stop step (step.extend ys hs hrest)
    · have hmid : mid ≠ [] := by
        rintro rfl
        exact hrest (List.suffix_nil.mp (loopRun_suffix step hgo))
      rw [turn_go step (step.extend ys hs hmid) (by simpa using hlt), loopRun_extend ys hgo hrest]
      rfl

end

/-- What `step` gives, one after the other, until it gives nothing. -/
def loop (step : Reader α (Option β)) : Reader α (List β) where
  run xs := loopRun step (xs.length + 1) xs
  suffix h := loopRun_suffix step h
  extend ys h hrest := by
    have hext := loopRun_extend step ys h hrest
    rwa [Nat.add_right_comm, ← List.length_append] at hext

theorem run_loop (step : Reader α (Option β)) (xs : List α) :
    (loop step).run xs = turn step (loop step).run xs := loopRun_length step xs

/-! ## Readers that know their own end -/

/-- What is read stays the same whatever follows, also where nothing followed. -/
def Closed (p : Reader α β) : Prop :=
  ∀ xs b rest ys, p.run xs = some (b, rest) → p.run (xs ++ ys) = some (b, rest ++ ys)

theorem closed_any : Closed (any : Reader α α) := by
  intro xs b rest ys h
  cases xs with
  | nil => cases h
  | cons x xs =>
    cases h
    rfl

/-- The last reader has to take something. -/
theorem Closed.bind {p : Reader α β} {q : β → Reader α γ} (hq : ∀ b, Closed (q b))
    (hnil : ∀ b, (q b).run [] = none) : Closed (p >>= q) := by
  intro xs c rest ys h
  obtain ⟨⟨b, mid⟩, hp, hrun⟩ := Option.bind_eq_some_iff.mp h
  have hmid : mid ≠ [] := by
    rintro rfl
    exact absurd (hnil b ▸ hrun) (by simp)
  rw [run_bind, p.extend ys hp hmid]
  exact hq b mid c rest ys hrun

theorem Closed.map {p : Reader α β} (hp : Closed p) (f : β → γ) : Closed (f <$> p) := by
  intro xs c rest ys h
  obtain ⟨⟨b, mid⟩, hrun, hpure⟩ := Option.bind_eq_some_iff.mp h
  cases hpure
  rw [run_map, hp _ _ _ ys hrun]
  rfl

theorem Closed.ifNext {f : α → Bool} {p q : Reader α β} (hp : Closed p) (hq : Closed q)
    (hnil : q.run [] = none) : Closed (ifNext f p q) := by
  intro xs b rest ys h
  cases xs with
  | nil => exact absurd (hnil.symm.trans h) (by simp)
  | cons x xs =>
    rw [run_ifNext_cons] at h
    rw [List.cons_append, run_ifNext_cons]
    split at h
    · next hx =>
      rw [if_pos hx]
      exact hp _ _ _ ys h
    · next hx =>
      rw [if_neg hx]
      exact hq _ _ _ ys h

/-- A loop knows its end if the turn that ends it does. -/
theorem closed_loop {step : Reader α (Option β)} (hnil : step.run [] = none)
    (hstop : ∀ xs rest ys, step.run xs = some (none, rest) →
      step.run (xs ++ ys) = some (none, rest ++ ys)) : Closed (loop step) := by
  intro xs
  induction hn : xs.length using Nat.strong_induction_on generalizing xs with
  | _ n ih =>
    intro bs rest ys h
    subst hn
    rw [run_loop] at h ⊢
    obtain ⟨hs, rfl⟩ | ⟨b, mid, bs', hs, hlt, hgo, rfl⟩ := turn_cases step h
    · exact turn_stop step (hstop _ _ ys hs)
    · have hmid : mid ≠ [] := by
        rintro rfl
        rw [run_loop, turn_none step hnil] at hgo
        cases hgo
      rw [turn_go step (step.extend ys hs hmid) (by simpa using hlt),
        ih _ hlt mid rfl bs' rest ys hgo]
      rfl

/-- **Nothing shorter is read**: where all of `w` is one value, what is cut off is none. -/
theorem Closed.cut {p : Reader α β} (hp : Closed p) {w w' z : List α} {b : β}
    (hw : p.run w = some (b, [])) (hcut : w = w' ++ z) (hz : z ≠ []) : p.run w' = none := by
  cases hrun : p.run w' with
  | none => rfl
  | some r =>
    have hext := hp _ _ _ z hrun
    rw [← hcut, hw] at hext
    exact absurd (List.append_eq_nil_iff.mp (congrArg Prod.snd (Option.some.inj hext)).symm).2 hz

/-! ## Reading what was written -/

/-- `p` reads `b` from `w` in front of whatever is `ok`. -/
def Reads (p : Reader α β) (ok : List α → Prop) (w : List α) (b : β) : Prop :=
  ∀ rest, ok rest → p.run (w ++ rest) = some (b, rest)

section

variable {ok ok' : List α → Prop} {w w' : List α} {b : β}

theorem Reads.mono {p : Reader α β} (h : Reads p ok w b) (hok : ∀ rest, ok' rest → ok rest) :
    Reads p ok' w b := fun rest hrest => h rest (hok rest hrest)

theorem Reads.pure (b : β) : Reads (Pure.pure b : Reader α β) ok [] b := fun _ _ => rfl

theorem Reads.bind {p : Reader α β} {q : β → Reader α γ} {c : γ} (hp : Reads p ok' w b)
    (hok : ∀ rest, ok rest → ok' (w' ++ rest)) (hq : Reads (q b) ok w' c) :
    Reads (p >>= q) ok (w ++ w') c := by
  intro rest hrest
  rw [List.append_assoc, run_bind, hp _ (hok rest hrest)]
  exact hq rest hrest

theorem Reads.map {p : Reader α β} (h : Reads p ok w b) (f : β → γ) :
    Reads (f <$> p) ok w (f b) := by
  intro rest hrest
  rw [run_map, h rest hrest]
  rfl

theorem reads_any (x : α) : Reads any ok [x] x := fun _ _ => rfl

/-- A run of symbols ends where the next one is different. -/
theorem reads_span {f : α → Bool} (hw : ∀ x ∈ w, f x = true)
    (hok : ∀ rest, ok rest → ∀ x ∈ rest.head?, f x = false) : Reads (span f) ok w w := by
  intro rest hrest
  have hstop := hok rest hrest
  rw [run_span, List.takeWhile_append_of_pos hw, List.dropWhile_append_of_pos hw]
  cases rest with
  | nil => simp
  | cons x rest => simp [hstop x rfl]

/-- **A loop reads what its turns read**, each of which takes something. -/
theorem reads_loop {step : Reader α (Option β)} {close : List α}
    (hclose : Reads step ok close none) (hok : ∀ rest, ok rest → ok' (close ++ rest)) :
    ∀ {items : List (List α × β)},
    (∀ i ∈ items, i.1 ≠ [] ∧ (∀ rest, ok' (i.1 ++ rest)) ∧ Reads step ok' i.1 (some i.2)) →
    Reads (loop step) ok (items.flatMap Prod.fst ++ close) (items.map Prod.snd)
  | [], _ => by
    intro rest hrest
    rw [run_loop]
    exact turn_stop step (hclose rest hrest)
  | i :: items, h => by
    intro rest hrest
    obtain ⟨hne, -, hi⟩ := h i List.mem_cons_self
    have htail : ∀ j ∈ items, _ := fun j hj => h j (List.mem_cons_of_mem i hj)
    have ih := reads_loop hclose hok htail rest hrest
    have hnext : ok' (items.flatMap Prod.fst ++ close ++ rest) := by
      cases items with
      | nil => exact hok rest hrest
      | cons j items =>
        rw [List.flatMap_cons, List.append_assoc, List.append_assoc]
        exact (htail j List.mem_cons_self).2.1 _
    have hlt : (items.flatMap Prod.fst ++ close ++ rest).length
        < (i.1 ++ (items.flatMap Prod.fst ++ close ++ rest)).length := by
      have hpos := List.length_pos_iff.mpr hne
      simp only [List.length_append]
      omega
    rw [List.flatMap_cons, List.append_assoc, List.append_assoc, ← List.append_assoc _ close,
      run_loop, turn_go step (hi _ hnext) hlt, ih]
    rfl

end

end Reader

end Infra
