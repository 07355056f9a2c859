import Mathlib
import LlmServe.Infra.Utf8

/-!
# Where bytes end

`decode` shows its last state in the text: a sequence that has begun and stopped reads U+FFFD, as do
bytes that belong to no character. Here both ends are described by the bytes alone, with the
encodings of characters: the decoder is inside a sequence exactly if the bytes end in a proper part
of an encoding (`not_clean_iff`), and the text ends in a character other than U+FFFD exactly if the
bytes end in its encoding (`getLast_decode_iff`).
-/

namespace Infra.Utf8

/-- The bytes end in a proper part of a character's encoding: more bytes can complete it. -/
def Incomplete (bs : List UInt8) : Prop :=
  ∃ (c : Char) (p q : List UInt8), p ≠ [] ∧ q ≠ [] ∧ String.utf8EncodeChar c = p ++ q ∧ p <:+ bs

/-- The bytes end in a character, other than U+FFFD. -/
def EndsInChar (bs : List UInt8) : Prop :=
  ∃ c, c ≠ replacement ∧ String.utf8EncodeChar c <:+ bs

/-! ## One step -/

/-- Only continuation bytes may follow, and all of them may be the last. -/
structure Begun.Ranged (p : Begun) : Prop where
  low : 0x80 ≤ p.low
  low_le : p.low ≤ p.high
  high : p.high ≤ 0xBF
  last : p.owed = 0 → p.low = 0x80

/-- What `start` keeps of the first byte of a sequence. -/
structure Lead (b : Nat) (p : Begun) : Prop extends p.Ranged where
  le : 0xC2 ≤ b
  /-- The lengths, and the ranges that keep out long forms, surrogates and what is too large. -/
  length : b < 0xE0 ∧ p.owed = 0 ∧ p.bits = b - 0xC0 ∨
    0xE0 ≤ b ∧ b < 0xF0 ∧ p.owed = 1 ∧ p.bits = b - 0xE0 ∧
      (p.bits = 0 → 0xA0 ≤ p.low) ∧ (p.bits = 0xD → p.high ≤ 0x9F) ∨
    0xF0 ≤ b ∧ b ≤ 0xF4 ∧ p.owed = 2 ∧ p.bits = b - 0xF0 ∧
      (p.bits = 0 → 0x90 ≤ p.low) ∧ (p.bits = 4 → p.high ≤ 0x8F)

theorem start_begun {b : Nat} {cs : List Char} {p : Begun} (h : start b = (cs, some p)) :
    cs = [] ∧ Lead b p := by
  unfold start at h
  revert h
  iterate 9
    refine iteInduction (motive := fun r => r = (cs, some p) → cs = [] ∧ Lead b p)
      (fun _ => ?_) (fun _ => ?_)
    · intro h
      cases h
      -- where a sequence begins
      all_goals
        refine ⟨rfl, ⟨?_, ?_, ?_, ?_⟩, by omega, ?_⟩
        all_goals
          dsimp only
          omega
  intro h
  cases h

/-- A byte that may follow goes on with the sequence; any other ends it and is read afresh. -/
theorem step_cases (s : Option Begun) (b : Nat) :
    (∃ p, s = some p ∧ p.low ≤ b ∧ b ≤ p.high ∧
      (p.owed = 0 ∧ step s b = ([Char.ofNat (p.bits * 64 + (b - 0x80))], none) ∨
        ∃ n, p.owed = n + 1 ∧
          step s b = ([], some { owed := n, bits := p.bits * 64 + (b - 0x80) }))) ∨
    step s b = (truncated s ++ (start b).1, (start b).2) := by
  cases s with
  | none => exact .inr rfl
  | some p =>
    by_cases hb : p.low ≤ b ∧ b ≤ p.high
    · refine .inl ⟨p, rfl, hb.1, hb.2, ?_⟩
      unfold step
      simp only [hb, and_self, if_true]
      cases p.owed with
      | zero => exact .inl ⟨rfl, rfl⟩
      | succ n => exact .inr ⟨n, rfl, rfl⟩
    · right
      unfold step
      simp only [hb, if_false]
      rfl

theorem ranged_start (b : Nat) : ∀ p ∈ (start b).2, p.Ranged := by
  intro p hp
  have hstart : start b = ((start b).1, some p) := Prod.ext rfl hp
  exact (start_begun hstart).2.toRanged

/-- Behind the first continuation byte the whole range may follow. -/
theorem ranged_next (n bits : Nat) : Begun.Ranged { owed := n, bits } where
  low := Nat.le_refl _
  low_le := show 0x80 ≤ 0xBF by omega
  high := Nat.le_refl _
  last _ := rfl

theorem ranged_step (s : Option Begun) (b : Nat) : ∀ p ∈ (step s b).2, p.Ranged := by
  rcases step_cases s b with ⟨p, -, -, -, ⟨-, h⟩ | ⟨n, -, h⟩⟩ | h
  · rw [h]
    nofun
  · rw [h]
    rintro p ⟨⟩
    exact ranged_next n _
  · rw [h]
    exact ranged_start b

theorem ranged_run : ∀ {s : Option Begun} (bs : List UInt8), (∀ p ∈ s, p.Ranged) →
    ∀ p ∈ (run s bs).2, p.Ranged
  | _, [], h => h
  | s, b :: bs, _ => ranged_run bs (ranged_step s b.toNat)

/-- Whatever was read, only continuation bytes may follow. -/
theorem ranged_of_run (bs : List UInt8) : ∀ p ∈ (run none bs).2, p.Ranged :=
  ranged_run bs (fun _ h => nomatch h)

/-- A byte outside the continuation bytes follows nothing. -/
theorem run_restart {s : Option Begun} (hs : ∀ p ∈ s, p.Ranged) {b : UInt8}
    (hb : b.toNat < 0x80 ∨ 0xBF < b.toNat) (bs : List UInt8) :
    run s (b :: bs) = (truncated s ++ (run none (b :: bs)).1, (run none (b :: bs)).2) := by
  have hstep : step s b.toNat = (truncated s ++ (start b.toNat).1, (start b.toNat).2) := by
    refine (step_cases s b.toNat).resolve_left ?_
    rintro ⟨p, hp, hlow, hhigh, -⟩
    have h1 := (hs p hp).low
    have h2 := (hs p hp).high
    omega
  rw [run, hstep, run, step, List.append_assoc]

/-! ## From an encoding to the end of the text -/

/-- The first byte of an encoding is no continuation byte. -/
theorem encode_head (c : Char) : ∃ b bs, String.utf8EncodeChar c = b :: bs ∧
    (b.toNat < 0x80 ∨ 0xBF < b.toNat) := by
  rw [encode_eq rfl]
  split_ifs
  · refine ⟨_, _, rfl, ?_⟩
    rw [toNat_ofNat (by omega)]
    omega
  all_goals
    refine ⟨_, _, rfl, Or.inr ?_⟩
    rw [toNat_ofNat (by omega)]
    omega

/-- From the first byte of an encoding on, the decoder reads as if nothing came before. -/
theorem run_append_head {p : List UInt8} {c : Char} (hp : p ≠ [])
    (hc : p <+: String.utf8EncodeChar c) (xs : List UInt8) : run none (xs ++ p) =
      ((run none xs).1 ++ truncated (run none xs).2 ++ (run none p).1, (run none p).2) := by
  obtain ⟨b, bs, henc, hb⟩ := encode_head c
  obtain ⟨b', p', rfl⟩ := List.exists_cons_of_ne_nil hp
  rw [henc] at hc
  obtain ⟨rfl, -⟩ := List.cons_prefix_cons.mp hc
  rw [run_append, run_restart (ranged_of_run xs) hb, List.append_assoc]

theorem not_clean_of_incomplete {bs : List UInt8} (h : Incomplete bs) : ¬Clean bs := by
  obtain ⟨c, p, q, hp, hq, henc, xs, rfl⟩ := h
  intro hclean
  have hpre : p <+: String.utf8EncodeChar c := henc ▸ List.prefix_append p q
  have hpc : Clean p := by
    unfold Clean at hclean
    rwa [run_append_head hp hpre] at hclean
  -- two characters would come out of one encoding
  have hone := run_encode c
  rw [henc, run_append_clean hpc] at hone
  have hlen := congrArg (fun r => r.1.length) hone
  have hp1 := List.length_pos_iff.mpr (run_ne_nil hp hpc)
  have hq1 := List.length_pos_iff.mpr (run_ne_nil hq (congrArg Prod.snd hone))
  simp only [List.length_append, List.length_singleton] at hlen
  omega

theorem getLast_of_encode {bs : List UInt8} {c : Char} (h : String.utf8EncodeChar c <:+ bs) :
    (decode bs).getLast? = some c := by
  obtain ⟨xs, rfl⟩ := h
  unfold decode
  rw [run_append_head String.utf8EncodeChar_ne_nil (List.prefix_refl _), run_encode]
  simp [truncated]

/-! ## Reading an encoding back -/

theorem ofNat_eq {n : Nat} {b : UInt8} (h : n = b.toNat) : UInt8.ofNat n = b := by
  rw [h, UInt8.ofNat_toNat]

theorem toNat_charOfNat {n : Nat} (h : n < 0xD800 ∨ 0xDFFF < n ∧ n < 0x110000) :
    (Char.ofNat n).toNat = n := by
  rw [Char.toNat_ofNat]
  exact if_pos h

theorem encode_one {a : UInt8} (ha : a.toNat < 0x80) :
    String.utf8EncodeChar (Char.ofNat a.toNat) = [a] := by
  rw [encode_eq (toNat_charOfNat (by omega)), if_pos (by omega), ofNat_eq rfl]

theorem encode_two {a b : UInt8} (ha : 0xC2 ≤ a.toNat ∧ a.toNat < 0xE0)
    (hb : 0x80 ≤ b.toNat ∧ b.toNat ≤ 0xBF) :
    String.utf8EncodeChar (Char.ofNat ((a.toNat - 0xC0) * 64 + (b.toNat - 0x80))) = [a, b] := by
  generalize hn : (a.toNat - 0xC0) * 64 + (b.toNat - 0x80) = n
  rw [encode_eq (toNat_charOfNat (by omega)), if_neg (by omega), if_pos (by omega),
    ofNat_eq (b := a) (by omega), ofNat_eq (b := b) (by omega)]

theorem encode_three {a b c : UInt8} (ha : 0xE0 ≤ a.toNat ∧ a.toNat < 0xF0)
    (hb : 0x80 ≤ b.toNat ∧ b.toNat ≤ 0xBF) (hc : 0x80 ≤ c.toNat ∧ c.toNat ≤ 0xBF)
    (hlong : a.toNat = 0xE0 → 0xA0 ≤ b.toNat) (hsurrogate : a.toNat = 0xED → b.toNat ≤ 0x9F) :
    String.utf8EncodeChar (Char.ofNat
      (((a.toNat - 0xE0) * 64 + (b.toNat - 0x80)) * 64 + (c.toNat - 0x80))) = [a, b, c] := by
  generalize hn : ((a.toNat - 0xE0) * 64 + (b.toNat - 0x80)) * 64 + (c.toNat - 0x80) = n
  rw [encode_eq (toNat_charOfNat (by omega)), if_neg (by omega), if_neg (by omega),
    if_pos (by omega), ofNat_eq (b := a) (by omega), ofNat_eq (b := b) (by omega),
    ofNat_eq (b := c) (by omega)]

theorem encode_four {a b c d : UInt8} (ha : 0xF0 ≤ a.toNat ∧ a.toNat ≤ 0xF4)
    (hb : 0x80 ≤ b.toNat ∧ b.toNat ≤ 0xBF) (hc : 0x80 ≤ c.toNat ∧ c.toNat ≤ 0xBF)
    (hd : 0x80 ≤ d.toNat ∧ d.toNat ≤ 0xBF) (hlong : a.toNat = 0xF0 → 0x90 ≤ b.toNat)
    (hlarge : a.toNat = 0xF4 → b.toNat ≤ 0x8F) :
    String.utf8EncodeChar (Char.ofNat
      ((((a.toNat - 0xF0) * 64 + (b.toNat - 0x80)) * 64 + (c.toNat - 0x80)) * 64
        + (d.toNat - 0x80))) = [a, b, c, d] := by
  generalize hn : (((a.toNat - 0xF0) * 64 + (b.toNat - 0x80)) * 64 + (c.toNat - 0x80)) * 64
    + (d.toNat - 0x80) = n
  rw [encode_eq (toNat_charOfNat (by omega)), if_neg (by omega), if_neg (by omega),
    if_neg (by omega), ofNat_eq (b := a) (by omega), ofNat_eq (b := b) (by omega),
    ofNat_eq (b := c) (by omega), ofNat_eq (b := d) (by omega)]

theorem eq_nil_of_run {s : Option Begun} {bs : List UInt8} (hout : (run s bs).1 = [])
    (hstate : (run s bs).2 = none) : bs = [] := by
  by_contra hne
  exact run_ne_nil hne hstate hout

/-- What completes a character at its last byte. -/
theorem run_owed_zero {p : Begun} {bs : List UInt8} {c : Char} (hc : c ≠ replacement)
    (hp : p.owed = 0) (h : run (some p) bs = ([c], none)) : ∃ b, bs = [b] ∧ p.low ≤ b.toNat ∧
      b.toNat ≤ p.high ∧ c = Char.ofNat (p.bits * 64 + (b.toNat - 0x80)) := by
  cases bs with
  | nil => cases h
  | cons b bs =>
    rw [run] at h
    rcases step_cases (some p) b.toNat with ⟨_, ⟨⟩, hlow, hhigh, ⟨-, hs⟩ | ⟨n, hn, -⟩⟩ | hs
    · rw [hs] at h
      obtain ⟨hout, hstate⟩ := Prod.mk.inj h
      obtain ⟨hchar, hnil⟩ := List.cons.inj hout
      exact ⟨b, by rw [eq_nil_of_run hnil hstate], hlow, hhigh, hchar.symm⟩
    · omega
    · rw [hs] at h
      exact absurd (List.cons.inj (Prod.mk.inj h).1).1.symm hc

/-- A byte before the last. -/
theorem run_owed_succ {p : Begun} {n : Nat} {bs : List UInt8} {c : Char} (hc : c ≠ replacement)
    (hp : p.owed = n + 1) (h : run (some p) bs = ([c], none)) : ∃ b bs', bs = b :: bs' ∧
      p.low ≤ b.toNat ∧ b.toNat ≤ p.high ∧
      run (some { owed := n, bits := p.bits * 64 + (b.toNat - 0x80) }) bs' = ([c], none) := by
  cases bs with
  | nil => cases h
  | cons b bs =>
    rw [run] at h
    rcases step_cases (some p) b.toNat with ⟨_, ⟨⟩, hlow, hhigh, ⟨h0, -⟩ | ⟨m, hm, hs⟩⟩ | hs
    · omega
    · obtain rfl : m = n := by omega
      rw [hs] at h
      exact ⟨b, bs, rfl, hlow, hhigh, h⟩
    · rw [hs] at h
      exact absurd (List.cons.inj (Prod.mk.inj h).1).1.symm hc

/-- **What is read as a character other than U+FFFD is its encoding.** -/
theorem encode_of_run {bs : List UInt8} {c : Char} (hc : c ≠ replacement)
    (h : run none bs = ([c], none)) : String.utf8EncodeChar c = bs := by
  cases bs with
  | nil => cases h
  | cons a bs =>
    rw [run, step] at h
    rcases start_cases a.toNat with ⟨ha, hs⟩ | hs | ⟨p, hs⟩
    · rw [hs] at h
      obtain ⟨hout, hstate⟩ := Prod.mk.inj h
      obtain ⟨rfl, hnil⟩ := List.cons.inj hout
      rw [eq_nil_of_run hnil hstate, encode_one ha]
    · rw [hs] at h
      exact absurd (List.cons.inj (Prod.mk.inj h).1).1.symm hc
    · have hlead := (start_begun hs).2
      have hlow := hlead.low
      have hhigh := hlead.high
      have hle := hlead.le
      rw [hs] at h
      replace h : run (some p) bs = ([c], none) := h
      rcases hlead.length with ⟨ha, howed, hbits⟩ | ⟨ha, ha', howed, hbits, hlong, hsurr⟩ |
        ⟨ha, ha', howed, hbits, hlong, hlarge⟩
      · obtain ⟨b, rfl, hb, hb', hchar⟩ := run_owed_zero hc howed h
        rw [hchar, hbits]
        exact encode_two ⟨hle, ha⟩ ⟨by omega, by omega⟩
      · obtain ⟨b, bs, rfl, hb, hb', h⟩ := run_owed_succ hc howed h
        obtain ⟨c', rfl, hc1, hc2, hchar⟩ := run_owed_zero hc rfl h
        dsimp only at hc1 hc2 hchar
        rw [hchar, hbits]
        exact encode_three ⟨ha, ha'⟩ ⟨by omega, by omega⟩ ⟨hc1, hc2⟩ (by omega) (by omega)
      · obtain ⟨b, bs, rfl, hb, hb', h⟩ := run_owed_succ hc howed h
        obtain ⟨c', bs, rfl, hc1, hc2, h⟩ := run_owed_succ hc rfl h
        obtain ⟨d, rfl, hd1, hd2, hchar⟩ := run_owed_zero hc rfl h
        dsimp only at hc1 hc2 hd1 hd2 hchar
        rw [hchar, hbits]
        exact encode_four ⟨ha, ha'⟩ ⟨by omega, by omega⟩ ⟨hc1, hc2⟩ ⟨hd1, hd2⟩ (by omega) (by omega)

/-! ## From the end of the text to an encoding -/

theorem run_snoc (s : Option Begun) (xs : List UInt8) (b : UInt8) : run s (xs ++ [b]) =
    ((run s xs).1 ++ (step (run s xs).2 b.toNat).1, (step (run s xs).2 b.toNat).2) := by
  rw [run_append, run, run, List.append_nil]

/-- A sequence that has begun and not been completed is the end of the bytes. -/
theorem begun_suffix {bs : List UInt8} {p : Begun} (h : (run none bs).2 = some p) :
    ∃ q, q ≠ [] ∧ q <:+ bs ∧ run none q = ([], some p) := by
  induction bs using List.reverseRecOn generalizing p with
  | nil => cases h
  | append_singleton xs b ih =>
    rw [run_snoc] at h
    rcases step_cases (run none xs).2 b.toNat with
      ⟨p', hs, -, -, ⟨-, hstep⟩ | ⟨n, -, hstep⟩⟩ | hstep
    · rw [hstep] at h
      cases h
    · obtain ⟨q, -, ⟨ys, rfl⟩, hrun⟩ := ih hs
      rw [hs] at hstep
      rw [hs, hstep] at h
      refine ⟨q ++ [b], List.append_ne_nil_of_right_ne_nil _ (List.cons_ne_nil _ _),
        ⟨ys, by rw [List.append_assoc]⟩, ?_⟩
      rw [run_snoc, hrun, hstep]
      exact Prod.ext rfl h
    · rw [hstep] at h
      have hstart : start b.toNat = ([], some p) := Prod.ext (start_begun (Prod.ext rfl h)).1 h
      refine ⟨[b], List.cons_ne_nil _ _, List.suffix_append _ _, ?_⟩
      rw [run, run, step, hstart]
      rfl

/-- A character that is complete at the end is read from the end of the bytes alone. -/
theorem char_suffix {bs : List UInt8} {c : Char} (hc : c ≠ replacement) (hclean : Clean bs)
    (h : (run none bs).1.getLast? = some c) : ∃ q, q <:+ bs ∧ run none q = ([c], none) := by
  rcases List.eq_nil_or_concat' bs with rfl | ⟨xs, b, rfl⟩
  · cases h
  unfold Clean at hclean
  rw [run_snoc] at h hclean
  have hlast : ∀ cs d, (step (run none xs).2 b.toNat).1 = cs ++ [d] → d = c := by
    intro cs d hd
    rw [hd, ← List.append_assoc, List.getLast?_concat] at h
    exact Option.some.inj h
  rcases step_cases (run none xs).2 b.toNat with ⟨p, hs, -, -, ⟨-, hstep⟩ | ⟨n, -, hstep⟩⟩ | hstep
  · have hchar := hlast [] _ (congrArg Prod.fst hstep)
    obtain ⟨q, -, ⟨ys, rfl⟩, hrun⟩ := begun_suffix hs
    refine ⟨q ++ [b], ⟨ys, by rw [List.append_assoc]⟩, ?_⟩
    rw [hs] at hstep
    rw [run_snoc, hrun, hstep, hchar]
    rfl
  · rw [hstep] at hclean
    cases hclean
  · rcases start_cases b.toNat with ⟨-, hstart⟩ | hstart | ⟨p, hstart⟩
    · rw [hstart] at hstep
      have hchar := hlast _ _ (congrArg Prod.fst hstep)
      refine ⟨[b], List.suffix_append _ _, ?_⟩
      rw [run, run, step, hstart, hchar]
      rfl
    · rw [hstart] at hstep
      exact absurd (hlast _ _ (congrArg Prod.fst hstep)).symm hc
    · rw [hstep, hstart] at hclean
      cases hclean

/-- The code points of the shortest completions are multiples of 64, and U+FFFD is not one. -/
theorem ofNat_mul_ne (k : Nat) : Char.ofNat (k * 64) ≠ replacement := by
  intro h
  have htoNat : (Char.ofNat (k * 64)).toNat = 0xFFFD := congrArg Char.toNat h
  rw [Char.toNat_ofNat] at htoNat
  split at htoNat <;> omega

/-- **What has begun can be completed**, by the smallest byte that may follow each time. -/
theorem Begun.Ranged.completion {p : Begun} (h : p.Ranged) :
    ∃ q k, q ≠ [] ∧ run (some p) q = ([Char.ofNat (k * 64)], none) := by
  obtain ⟨owed, low, high, bits⟩ := p
  have hlow := h.low_le
  have hhigh := h.high
  dsimp only at hlow hhigh
  induction owed generalizing low high bits with
  | zero =>
    obtain rfl : low = 0x80 := h.last rfl
    exact ⟨[UInt8.ofNat 0x80], bits, List.cons_ne_nil _ _,
      run_last (Nat.le_refl _) hlow (by omega)⟩
  | succ n ih =>
    have hnext := ranged_next n (bits * 64 + (low - 0x80))
    obtain ⟨q, k, -, hrun⟩ := ih _ _ _ hnext hnext.low_le hnext.high
    refine ⟨UInt8.ofNat low :: q, k, List.cons_ne_nil _ _, ?_⟩
    rw [run_more (Nat.le_refl _) hlow (by omega), hrun]

/-- **The decoder is inside a sequence exactly if the bytes end in a proper part of an
encoding.** -/
theorem not_clean_iff {bs : List UInt8} : ¬Clean bs ↔ Incomplete bs := by
  refine ⟨fun h => ?_, not_clean_of_incomplete⟩
  obtain ⟨p, hp⟩ := Option.ne_none_iff_exists'.mp h
  obtain ⟨q, hq, hsuffix, hrun⟩ := begun_suffix hp
  obtain ⟨q', k, hq', hrun'⟩ := (ranged_of_run bs p hp).completion
  refine ⟨Char.ofNat (k * 64), q, q', hq, hq', encode_of_run (ofNat_mul_ne k) ?_, hsuffix⟩
  rw [run_append, hrun, hrun', List.nil_append]

/-- **The text ends in a character other than U+FFFD exactly if the bytes end in its encoding.** -/
theorem getLast_decode_iff {bs : List UInt8} {c : Char} (hc : c ≠ replacement) :
    (decode bs).getLast? = some c ↔ String.utf8EncodeChar c <:+ bs := by
  refine ⟨fun h => ?_, getLast_of_encode⟩
  have hclean : Clean bs := clean_of_getLast (by rw [h]; exact fun he => hc (Option.some.inj he))
  have hrun : (run none bs).1.getLast? = some c := by
    unfold decode at h
    rwa [show (run none bs).2 = none from hclean, truncated, List.append_nil] at h
  obtain ⟨q, hsuffix, hq⟩ := char_suffix hc hclean hrun
  rwa [encode_of_run hc hq]

theorem getLast_ne_iff {bs : List UInt8} (hbs : bs ≠ []) :
    (decode bs).getLast? ≠ some replacement ↔ EndsInChar bs := by
  have hlast : (decode bs).getLast? = some ((decode bs).getLast (decode_ne_nil hbs)) :=
    List.getLast?_eq_some_getLast _
  constructor
  · intro h
    rw [hlast] at h
    have hc : (decode bs).getLast (decode_ne_nil hbs) ≠ replacement :=
      fun he => h (congrArg some he)
    exact ⟨_, hc, (getLast_decode_iff hc).mp hlast⟩
  · rintro ⟨c, hc, hsuffix⟩
    rw [getLast_of_encode hsuffix]
    exact fun he => hc (Option.some.inj he)

end Infra.Utf8
