import LlmServe.Infra.Machine
import LlmServe.Infra.Unroll
import Mathlib.Logic.Function.Basic

/-!
# A service of independent answers

What a service looks like from outside that gives each client one answer, element by element. Each
answer is made from the client's own question alone; between clients there is only the order of the
calls. Nothing is said about when an element comes: a client may leave at any time, and only of a
client that has left may the rest be held back.

`Service.sound` is what every run of such a service guarantees each client.
-/

namespace Infra

/-- How answers of type `List α` to questions of type `β` are made. -/
structure Answering (α β : Type) where
  next : List α → α
  start : β → List α
  /-- Whether an answer is complete. -/
  last : β → List α → Bool
  /-- Whether the client is called for each element. -/
  heard : β → Bool

/-- One client. -/
structure Session (α β : Type) where
  ask : β
  out : List α := []
  left : Bool := false
  closed : Bool := false

/-- The elements of an answer, each with whether it completes it. -/
def Answering.calls {α β : Type} (A : Answering α β) (b : β) (out : List α) : List (α × Bool) :=
  (List.range out.length).zipWith (fun k a => (a, A.last b (out.take (k + 1)))) out

/-- Clients are numbered as they come; the log has every call, in order. -/
structure Service (α β : Type) where
  count : Nat
  session : Nat → Session α β
  log : List (Nat × α × Bool)

variable {α β : Type} {A : Answering α β}

/-- A client may leave, and may be told nothing more once it has left. -/
structure Session.Fades (c c' : Session α β) : Prop where
  ask : c'.ask = c.ask
  out : c'.out = c.out
  left : c.left = true → c'.left = true
  closed : c.closed = true → c'.closed = true
  why : c'.closed = true → c.closed = true ∨ c.left = true

theorem Session.Fades.refl (c : Session α β) : c.Fades c :=
  ⟨rfl, rfl, fun h => h, fun h => h, Or.inl⟩

namespace Service

/-- The calls of one client. -/
def callsOf (i : Nat) (log : List (Nat × α × Bool)) : List (α × Bool) :=
  log.filterMap fun x => if x.1 = i then some x.2 else none

theorem callsOf_append (i : Nat) (l l' : List (Nat × α × Bool)) :
    callsOf i (l ++ l') = callsOf i l ++ callsOf i l' := List.filterMap_append

/-- The next element of a client's answer. -/
def element (A : Answering α β) (c : Session α β) : α := A.next (A.start c.ask ++ c.out)

def deliver (A : Answering α β) (s : Service α β) (i : Nat) : Service α β :=
  let c := s.session i
  let out := c.out ++ [element A c]
  { s with
    session := Function.update s.session i { c with out, closed := A.last c.ask out }
    log := s.log ++ if A.heard c.ask then [(i, element A c, A.last c.ask out)] else [] }

inductive Step (A : Answering α β) : Service α β → Service α β → Prop
  /-- A client comes. -/
  | open (s : Service α β) (b : β) (left : Bool) :
      Step A s { s with
        count := s.count + 1
        session := Function.update s.session s.count { ask := b, left } }
  /-- A client gets its next element. -/
  | deliver (s : Service α β) (i : Nat) (hi : i < s.count) (hopen : (s.session i).closed = false) :
      Step A s (s.deliver A i)
  /-- Clients leave, or are given up after they left. -/
  | fade (s : Service α β) (f : Nat → Session α β) (h : ∀ i, (s.session i).Fades (f i)) :
      Step A s { s with session := f }

abbrev Steps (A : Answering α β) : Service α β → Service α β → Prop :=
  Relation.ReflTransGen (Step A)

/-! ## What every client can rely on -/

/-- One client, with the calls it got. -/
structure Sound (A : Answering α β) (c : Session α β) (calls : List (α × Bool)) : Prop where
  unrolled : c.out = unroll A.next (A.start c.ask) c.out.length
  /-- No answer goes on after it is complete. -/
  goes : ∀ pre, pre <+: c.out → pre ≠ [] → pre ≠ c.out → A.last c.ask pre = false
  unfinished : c.closed = false → c.out ≠ [] → A.last c.ask c.out = false
  /-- No answer is cut short but that of a client that left. -/
  closed : c.closed = true → c.left = true ∨ A.last c.ask c.out = true
  heard : A.heard c.ask = true → calls = A.calls c.ask c.out
  unheard : A.heard c.ask = false → calls = []

/-- A client that has just come. -/
theorem Sound.fresh (b : β) (left : Bool) : Sound A { ask := b, left } [] where
  unrolled := rfl
  goes _ hpre hne := absurd (List.prefix_nil.mp hpre) hne
  unfinished _ hne := absurd rfl hne
  closed := nofun
  heard _ := rfl
  unheard _ := rfl

theorem calls_snoc (b : β) (out : List α) (a : α) :
    A.calls b (out ++ [a]) = A.calls b out ++ [(a, A.last b (out ++ [a]))] := by
  unfold Answering.calls
  rw [List.length_append, List.length_singleton, List.range_succ,
    List.zipWith_append (by simp)]
  congr 1
  · refine List.ext_getElem (by simp) fun k hk _ => ?_
    have hlt : k < out.length := by simpa using hk
    simp [List.take_append_of_le_length (Nat.succ_le_of_lt hlt)]
  · simp [List.take_of_length_le]

theorem sound_fades {c c' : Session α β} {calls : List (α × Bool)} (h : Sound A c calls)
    (hf : c.Fades c') : Sound A c' calls := by
  obtain ⟨ask, out, left, closed⟩ := c'
  obtain ⟨rfl, rfl, hleft, hclosed, hwhy⟩ := hf
  refine ⟨h.unrolled, h.goes, fun hopen => ?_, fun hshut => ?_, h.heard, h.unheard⟩
  · refine h.unfinished ?_
    cases hc : c.closed with
    | false => rfl
    | true => cases (hclosed hc).symm.trans hopen
  · rcases hwhy hshut with hc | hl
    · exact (h.closed hc).imp_left hleft
    · exact Or.inl (hleft hl)

theorem sound_deliver {c : Session α β} {calls : List (α × Bool)} (h : Sound A c calls)
    (hopen : c.closed = false) :
    Sound A { c with out := c.out ++ [element A c],
                     closed := A.last c.ask (c.out ++ [element A c]) }
      (calls ++ if A.heard c.ask then [(element A c, A.last c.ask (c.out ++ [element A c]))]
        else []) where
  unrolled := unroll_snoc h.unrolled rfl
  goes pre hpre hne hlt := by
    rcases List.prefix_concat_iff.mp hpre with he | hpre
    · exact absurd he hlt
    · by_cases he : pre = c.out
      · subst he
        exact h.unfinished hopen hne
      · exact h.goes pre hpre hne he
  unfinished hshut _ := hshut
  closed hshut := Or.inr hshut
  heard hh := by
    have hh : A.heard c.ask = true := hh
    show _ = A.calls c.ask (c.out ++ [element A c])
    rw [if_pos hh, h.heard hh, calls_snoc]
  unheard hh := by
    have hh : A.heard c.ask = false := hh
    rw [h.unheard hh, hh]
    rfl

/-- **Every client gets its own answer**, element by element, whatever the others get. -/
theorem sound {s s' : Service α β} (hsteps : Steps A s s')
    (h : ∀ i, Sound A (s.session i) (callsOf i s.log))
    (hnew : ∀ i, s.count ≤ i → callsOf i s.log = []) :
    ∀ i, Sound A (s'.session i) (callsOf i s'.log) := by
  have hstep : ∀ x y : Service α β, Step A x y →
      (∀ i, Sound A (x.session i) (callsOf i x.log)) ∧ (∀ i, x.count ≤ i → callsOf i x.log = []) →
      (∀ i, Sound A (y.session i) (callsOf i y.log)) ∧
        (∀ i, y.count ≤ i → callsOf i y.log = []) := by
    rintro x y hxy ⟨hx, hnone⟩
    cases hxy with
    | «open» b left =>
      refine ⟨fun i => ?_, fun i hi => hnone i (Nat.le_of_succ_le hi)⟩
      by_cases hi : i = x.count
      · subst hi
        show Sound A (Function.update x.session x.count { ask := b, left } x.count) _
        rw [Function.update_self, hnone _ le_rfl]
        exact .fresh b left
      · show Sound A (Function.update x.session x.count { ask := b, left } i) _
        rw [Function.update_of_ne hi]
        exact hx i
    | deliver j hj hopen =>
      have hother : ∀ i, i ≠ j → callsOf i (x.deliver A j).log = callsOf i x.log := by
        intro i hi
        show callsOf i (x.log ++ _) = _
        rw [callsOf_append]
        split
        · simp [callsOf, hi.symm]
        · simp [callsOf]
      refine ⟨fun i => ?_, fun i hi => ?_⟩
      · by_cases hi : i = j
        · subst hi
          have hd := sound_deliver (hx i) hopen
          show Sound A (Function.update x.session i _ i) (callsOf i (x.log ++ _))
          rw [Function.update_self, callsOf_append]
          convert hd using 2
          split <;> simp [callsOf]
        · rw [hother i hi]
          show Sound A (Function.update x.session j _ i) _
          rw [Function.update_of_ne hi]
          exact hx i
      · rw [hother i fun he => absurd hj (Nat.not_lt.mpr (he ▸ hi))]
        exact hnone i hi
    | fade f hf => exact ⟨fun i => sound_fades (hx i) (hf i), hnone⟩
  exact (reach_invariant hstep hsteps ⟨h, hnew⟩).1

end Service

end Infra
