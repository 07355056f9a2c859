import Mathlib.Data.List.Nodup
import Mathlib.Data.List.Perm.Basic
import Mathlib.Data.List.Perm.Lattice

/-!
# Insertion-ordered dictionaries

The dictionary of the source language: distinct keys in insertion order, assignment that
keeps the place of a key it already has, and `pop` with a default.

The entries are read up to permutation. An allocator that stores one entry for each object it
serves keeps "the entries are a permutation of the objects' entries", and the two lemmas
`set_perm` and `pop_perm` carry that through an assignment to a fresh key and a `pop`.
-/

namespace Infra

/-- A dictionary: entries in insertion order, no key twice. -/
structure Dict (κ ν : Type) where
  entries : List (κ × ν)
  nodup : (entries.map Prod.fst).Nodup

namespace Dict

variable {κ ν : Type}

def empty : Dict κ ν := ⟨[], List.nodup_nil⟩

def keys (d : Dict κ ν) : List κ := d.entries.map Prod.fst

def values (d : Dict κ ν) : List ν := d.entries.map Prod.snd

theorem keys_perm {d : Dict κ ν} {l : List (κ × ν)} (h : d.entries.Perm l) :
    d.keys.Perm (l.map Prod.fst) := h.map _

theorem values_perm {d : Dict κ ν} {l : List (κ × ν)} (h : d.entries.Perm l) :
    d.values.Perm (l.map Prod.snd) := h.map _

@[simp] theorem entries_empty : (empty : Dict κ ν).entries = [] := rfl

variable [DecidableEq κ]

/-- Entries with the value under `k` replaced. -/
def replace (k : κ) (v : ν) (l : List (κ × ν)) : List (κ × ν) :=
  l.map fun e => if e.1 = k then (k, v) else e

theorem map_fst_replace (k : κ) (v : ν) (l : List (κ × ν)) :
    (replace k v l).map Prod.fst = l.map Prod.fst := by
  rw [replace, List.map_map]
  refine List.map_congr_left fun e _ => ?_
  by_cases h : e.1 = k <;> simp [h]

/-- `d[k] = v`. -/
def set (d : Dict κ ν) (k : κ) (v : ν) : Dict κ ν :=
  if h : k ∈ d.keys then
    ⟨replace k v d.entries, by rw [map_fst_replace]; exact d.nodup⟩
  else
    ⟨d.entries ++ [(k, v)], by
      rw [List.map_append]
      refine List.nodup_append.mpr ⟨d.nodup, List.nodup_singleton _, ?_⟩
      rintro a ha b hb rfl
      have hak : a = k := List.mem_singleton.mp hb
      exact h (hak ▸ ha)⟩

/-- `d.pop(k, None)`. -/
def pop (d : Dict κ ν) (k : κ) : Dict κ ν :=
  ⟨d.entries.filter fun e => e.1 ≠ k, d.nodup.sublist (List.filter_sublist.map _)⟩

@[simp] theorem entries_pop (d : Dict κ ν) (k : κ) :
    (d.pop k).entries = d.entries.filter fun e => e.1 ≠ k := rfl

theorem entries_set_of_notMem {d : Dict κ ν} {k : κ} (h : k ∉ d.keys) (v : ν) :
    (d.set k v).entries = d.entries ++ [(k, v)] := by
  rw [set, dif_neg h]

/-! ## Reading the entries up to permutation -/

/-- Assignment to a fresh key adds one entry. -/
theorem set_perm {d : Dict κ ν} {l : List (κ × ν)} {k : κ} {v : ν}
    (hk : k ∉ l.map Prod.fst) (h : d.entries.Perm l) :
    (d.set k v).entries.Perm (l ++ [(k, v)]) := by
  rw [entries_set_of_notMem fun hm => hk ((keys_perm h).mem_iff.mp hm)]
  exact h.append_right _

/-- `pop` takes out the one entry under its key. -/
theorem pop_perm {d : Dict κ ν} {l : List (κ × ν)} {k : κ} {v : ν}
    (h : d.entries.Perm ((k, v) :: l)) : (d.pop k).entries.Perm l := by
  have hnd : (((k, v) :: l).map Prod.fst).Nodup := (h.map Prod.fst).nodup_iff.mp d.nodup
  have hk : k ∉ l.map Prod.fst := (List.nodup_cons.mp hnd).1
  have hkeep : l.filter (fun e => e.1 ≠ k) = l := by
    refine List.filter_eq_self.mpr fun e he => ?_
    simpa using fun hek : e.1 = k => hk (hek ▸ List.mem_map_of_mem he)
  have hpop : (d.pop k).entries.Perm (((k, v) :: l).filter fun e => e.1 ≠ k) := h.filter _
  rwa [List.filter_cons_of_neg (by simp), hkeep] at hpop

end Dict

end Infra
